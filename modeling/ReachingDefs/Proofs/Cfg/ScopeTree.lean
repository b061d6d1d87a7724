import Mathlib.Data.List.Infix
import ReachingDefs.Cfg.Build

/-!
# The scope tree

A position's *view* is the list of bindings visible there, innermost and latest first: those
of its frame up to its length, latest first, then the view of the position the frame was opened
at. A look-up is the first binding of the name in the view (`Scopes.lookup_eq_visible`).

Lowering only ever appends: a frame at the end of the tree, a binding at the end of a frame
(`Scopes.Extends`). In a well-formed tree every frame was opened at a position of an older frame
that fits it (`Scopes.WF`), so the view of a position that fits stays the same in every tree
that extends it (`Scopes.visible_of_extends`). This is what lets a node's recorded position show,
after the whole body is lowered, exactly the bindings that were visible when the node was added.
Declaring at the end of the innermost frame puts the binding in front of the view
(`Scopes.visible_declare`), and a fresh frame shows what its parent position shows
(`Scopes.visible_openFrame`).

## Main definitions

* `Scopes.visible`: the bindings visible at a position
* `Scopes.Fits`, `Scopes.AtEnd`: a position within its frame, and at its end
* `Scopes.WF`: every frame was opened at an older, fitting position
* `Scopes.Extends`: a tree grown from another at the ends only

## Main results

* `Scopes.lookup_eq_visible`: a look-up reads the view
* `Scopes.visible_of_extends`: views of fitting positions never change as the tree grows
-/

namespace ReachingDefs

theorem Bindings.lookup_append (a b : Bindings) (name : String) :
    Bindings.lookup (a ++ b) name = (a.lookup name).or (b.lookup name) := by
  simp only [Bindings.lookup, List.find?_append]
  cases a.find? (·.1 == name) <;> rfl

/-- A name is bound exactly when it is the name of some binding. -/
theorem Bindings.lookup_isSome (b : Bindings) (name : String) :
    (b.lookup name).isSome ↔ name ∈ b.map Prod.fst := by
  induction b with
  | nil => simp
  | cons e rest ih =>
    obtain ⟨x, v⟩ := e
    rw [Bindings.lookup_cons]
    by_cases h : x = name <;> simp [h, ih, Ne.symm]

namespace Scopes

/-- The bindings visible at a position, innermost and latest first. -/
def visible (s : Scopes) (point : ScopePoint) : Bindings :=
  match s.frames[point.frame]? with
  | none => []
  | some f =>
    (f.bindings.toList.take point.len).reverse ++
      match f.parent with
      | none => []
      | some p => if p.frame < point.frame then s.visible p else []
termination_by point.frame

/-- **A look-up reads the view**: the first binding of the name visible at the position. The walk
through the frames finds, frame after frame, the first binding of the view. -/
theorem lookup_eq_visible (s : Scopes) (point : ScopePoint) (name : String) :
    s.lookup point name = (s.visible point).lookup name := by
  fun_induction s.lookup point name with
  | case1 point hf =>
    rw [visible, hf]
    rfl
  | case2 point f hf id hid =>
    rw [visible, hf, Bindings.lookup_append, hid]
    rfl
  | case3 point f hf hid hp =>
    rw [visible, hf, Bindings.lookup_append, hid, hp]
    rfl
  | case4 point f hf hid p hp hlt ih =>
    rw [visible, hf]
    simp only [Bindings.lookup_append, hid, hp, hlt, if_true, ih, Option.none_or]
  | case5 point f hf hid p hp hlt =>
    rw [visible, hf]
    simp only [Bindings.lookup_append, hid, hp, hlt, if_false, Bindings.lookup_nil,
      Option.none_or]

/-- The position lies within its frame: the frame exists and holds at least the bindings the
position shows. -/
def Fits (s : Scopes) (p : ScopePoint) : Prop :=
  ∃ f : Frame, s.frames[p.frame]? = some f ∧ p.len ≤ f.bindings.size

/-- The position shows every binding its frame holds: it is where the next one goes. -/
def AtEnd (s : Scopes) (p : ScopePoint) : Prop :=
  ∃ f : Frame, s.frames[p.frame]? = some f ∧ p.len = f.bindings.size

/-- Every frame was opened at a position of an older frame, and that position fits. -/
def WF (s : Scopes) : Prop :=
  ∀ (i : Nat) (f : Frame), s.frames[i]? = some f → ∀ p, f.parent = some p →
    p.frame < i ∧ s.Fits p

/-- `s'` grows `s` at the ends only: it keeps every frame with its parent, and each frame's
bindings begin with the old ones. -/
def Extends (s s' : Scopes) : Prop :=
  ∀ (i : Nat) (f : Frame), s.frames[i]? = some f →
    ∃ g : Frame, s'.frames[i]? = some g ∧ g.parent = f.parent ∧
      f.bindings.toList <+: g.bindings.toList

theorem AtEnd.fits {s : Scopes} {p : ScopePoint} (h : s.AtEnd p) : s.Fits p := by
  obtain ⟨f, hf, hlen⟩ := h
  exact ⟨f, hf, hlen.le⟩

theorem Fits.frame_lt {s : Scopes} {p : ScopePoint} (h : s.Fits p) : p.frame < s.frames.size := by
  obtain ⟨f, hf, -⟩ := h
  exact (Array.getElem?_eq_some_iff.mp hf).1

namespace Extends

theorem refl (s : Scopes) : Extends s s := fun _ f hf => ⟨f, hf, rfl, List.prefix_refl _⟩

theorem trans {s s' s'' : Scopes} (h : Extends s s') (h' : Extends s' s'') : Extends s s'' := by
  intro i f hf
  obtain ⟨g, hg, hpar, hpre⟩ := h i f hf
  obtain ⟨k, hk, hpar', hpre'⟩ := h' i g hg
  exact ⟨k, hk, hpar'.trans hpar, hpre.trans hpre'⟩

/-- A position that fits still fits. -/
theorem fits {s s' : Scopes} (h : Extends s s') {p : ScopePoint} (hp : s.Fits p) : s'.Fits p := by
  obtain ⟨f, hf, hlen⟩ := hp
  obtain ⟨g, hg, -, hpre⟩ := h _ f hf
  have := hpre.length_le
  simp only [Array.length_toList] at this
  exact ⟨g, hg, by omega⟩

end Extends

/-- **The view of a fitting position never changes as the tree grows at its ends.** The view
reads only the first `len` bindings of each frame up the tree, and in a well-formed tree every
position up there fits its frame, so none of the bindings appended later is read. -/
theorem visible_of_extends {s s' : Scopes} (hwf : s.WF) (hext : Extends s s') :
    ∀ p : ScopePoint, s.Fits p → s'.visible p = s.visible p := by
  -- by induction on the frame: a frame's parent position lies in an older frame
  suffices ∀ n (p : ScopePoint), p.frame = n → s.Fits p → s'.visible p = s.visible p from
    fun p => this p.frame p rfl
  intro n
  induction n using Nat.strong_induction_on with
  | _ n ih =>
    intro p hpn hp
    obtain ⟨f, hf, hlen⟩ := hp
    obtain ⟨g, hg, hpar, hpre⟩ := hext _ f hf
    -- the frame's visible bindings are the same, since the old ones begin the new ones
    have htake : g.bindings.toList.take p.len = f.bindings.toList.take p.len := by
      obtain ⟨rest, hrest⟩ := hpre
      rw [← hrest, List.take_append_of_le_length (by simpa using hlen)]
    rw [visible, hg, visible, hf]
    simp only [htake, hpar]
    congr 1
    cases hq : f.parent with
    | none => rfl
    | some q =>
      simp only
      split
      · rename_i hlt
        exact ih q.frame (hpn ▸ hlt) q rfl (hwf _ f hf q hq).2
      · rfl

/-- The view reads the frames alone. -/
theorem visible_congr {s s' : Scopes} (h : s.frames = s'.frames) (p : ScopePoint) :
    s.visible p = s'.visible p := by
  fun_induction s.visible p with
  | case1 p hf => rw [visible, ← h, hf]
  | case2 p f hf ih =>
    rw [visible, ← h, hf]
    simp only
    congr 1
    cases f.parent with
    | none => rfl
    | some q =>
      simp only
      split
      · exact ih q ‹_›
      · rfl

@[simp] theorem record_frames (s : Scopes) (p : ScopePoint) : (s.record p).frames = s.frames := rfl

@[simp] theorem insertFree_frames (s : Scopes) (name : String) (id : Nat) :
    (s.insertFree name id).frames = s.frames := rfl

@[simp] theorem record_atNode (s : Scopes) (p : ScopePoint) :
    (s.record p).atNode = s.atNode.push p := rfl

@[simp] theorem insertFree_atNode (s : Scopes) (name : String) (id : Nat) :
    (s.insertFree name id).atNode = s.atNode := rfl

@[simp] theorem insertFree_free (s : Scopes) (name : String) (id : Nat) :
    (s.insertFree name id).free = (name, id) :: s.free := rfl

@[simp] theorem record_free (s : Scopes) (p : ScopePoint) : (s.record p).free = s.free := rfl

theorem Extends.of_frames_eq {s s' : Scopes} (h : s.frames = s'.frames) : Extends s s' := by
  intro i f hf
  exact ⟨f, h ▸ hf, rfl, List.prefix_refl _⟩

theorem WF.of_frames_eq {s s' : Scopes} (hwf : s.WF) (h : s.frames = s'.frames) : s'.WF := by
  intro i f hf q hq
  obtain ⟨hlt, g, hg, hlen⟩ := hwf i f (h ▸ hf) q hq
  exact ⟨hlt, g, h ▸ hg, hlen⟩

/-- The tree a procedure starts with: the root frame alone, and the position at its start. -/
theorem new_wf : Scopes.new.1.WF := by
  intro i f hf q hq
  simp only [Scopes.new] at hf
  -- the only frame is the root, which has no parent
  have : f = {} := by
    rcases i with _ | i
    · simpa using hf.symm
    · simp at hf
  subst this
  cases hq

theorem new_atEnd : Scopes.new.1.AtEnd Scopes.new.2 := ⟨{}, rfl, rfl⟩

@[simp] theorem new_visible : Scopes.new.1.visible Scopes.new.2 = [] := by
  rw [visible]
  rfl

/-! ## Opening a frame -/

section OpenFrame

variable {s : Scopes} {p : ScopePoint}

@[simp] theorem openFrame_frames : (s.openFrame p).1.frames = s.frames.push { parent := some p } :=
  rfl

@[simp] theorem openFrame_point : (s.openFrame p).2 = ⟨s.frames.size, 0⟩ := rfl

@[simp] theorem openFrame_atNode : (s.openFrame p).1.atNode = s.atNode := rfl

@[simp] theorem openFrame_free : (s.openFrame p).1.free = s.free := rfl

theorem getElem?_openFrame_frames_lt {i : Nat} (h : i < s.frames.size) :
    (s.openFrame p).1.frames[i]? = s.frames[i]? := by
  simp [openFrame, Array.getElem?_push, Nat.ne_of_lt h]

theorem openFrame_extends : Extends s (s.openFrame p).1 := by
  intro i f hf
  have hi : i < s.frames.size := (Array.getElem?_eq_some_iff.mp hf).1
  exact ⟨f, by rw [getElem?_openFrame_frames_lt hi, hf], rfl, List.prefix_refl _⟩

/-- The new frame is the last one, opened at `p`, with no binding yet. -/
theorem getElem?_openFrame_new :
    (s.openFrame p).1.frames[(s.openFrame p).2.frame]? = some { parent := some p } := by
  simp [openFrame]

theorem WF.openFrame (hwf : s.WF) (hp : s.Fits p) : (s.openFrame p).1.WF := by
  intro i f hf q hq
  by_cases hi : i < s.frames.size
  · rw [getElem?_openFrame_frames_lt hi] at hf
    obtain ⟨hlt, hfits⟩ := hwf i f hf q hq
    exact ⟨hlt, openFrame_extends.fits hfits⟩
  · -- the new frame: it was opened at `p`, in an older frame
    have hnew : i = s.frames.size := by
      have := (Array.getElem?_eq_some_iff.mp hf).1
      rw [openFrame_frames, Array.size_push] at this
      omega
    subst hnew
    rw [openFrame_frames, Array.getElem?_push_size] at hf
    cases hf
    cases hq
    exact ⟨hp.frame_lt, openFrame_extends.fits hp⟩

theorem atEnd_openFrame : (s.openFrame p).1.AtEnd (s.openFrame p).2 :=
  ⟨{ parent := some p }, getElem?_openFrame_new, rfl⟩

/-- **A fresh frame shows what its parent position shows.** -/
theorem visible_openFrame (hwf : s.WF) (hp : s.Fits p) :
    (s.openFrame p).1.visible (s.openFrame p).2 = s.visible p := by
  rw [visible, getElem?_openFrame_new]
  have hlt : p.frame < (s.openFrame p).2.frame := hp.frame_lt
  simp only [List.take_nil, List.reverse_nil, List.nil_append, hlt, if_true]
  exact visible_of_extends hwf openFrame_extends p hp

end OpenFrame

/-! ## Declaring at the end of a frame -/

section Declare

variable {s : Scopes} {p : ScopePoint} {x : String} {v : Nat}

theorem declare_extends : Extends s (s.declare p x v).1 := by
  intro i f hf
  unfold declare
  split
  · exact ⟨f, hf, rfl, List.prefix_refl _⟩
  · rename_i g hg
    by_cases hi : i = p.frame
    · subst hi
      rw [hg] at hf
      cases hf
      refine ⟨{ f with bindings := f.bindings.push (x, v) }, ?_, rfl, ?_⟩
      · simp [Array.getElem?_modify, hg]
      · simp
    · refine ⟨f, ?_, rfl, List.prefix_refl _⟩
      simp [Array.getElem?_modify, Ne.symm hi, hf]

@[simp] theorem declare_frames_size : (s.declare p x v).1.frames.size = s.frames.size := by
  unfold declare
  split <;> simp

@[simp] theorem declare_point_frame : (s.declare p x v).2.frame = p.frame := by
  unfold declare
  split <;> rfl

/-- Declaring touches the frame of the position alone. -/
theorem getElem?_declare_frames_of_ne {i : Nat} (hi : i ≠ p.frame) :
    (s.declare p x v).1.frames[i]? = s.frames[i]? := by
  unfold declare
  split
  · rfl
  · simp [Array.getElem?_modify, Ne.symm hi]

/-- Every frame keeps its parent. -/
theorem parent_declare {i : Nat} {g : Frame} (hg : (s.declare p x v).1.frames[i]? = some g) :
    ∃ f : Frame, s.frames[i]? = some f ∧ g.parent = f.parent := by
  unfold declare at hg
  split at hg
  · exact ⟨g, hg, rfl⟩
  · rw [Array.getElem?_modify] at hg
    split at hg
    · rename_i hi
      obtain ⟨f, hf, rfl⟩ := Option.map_eq_some_iff.mp hg
      exact ⟨f, hf, rfl⟩
    · exact ⟨g, hg, rfl⟩

theorem WF.declare (hwf : s.WF) : (s.declare p x v).1.WF := by
  intro i g hg q hq
  obtain ⟨f, hf, hpar⟩ := parent_declare hg
  obtain ⟨hlt, hfits⟩ := hwf i f hf q (hpar ▸ hq)
  exact ⟨hlt, declare_extends.fits hfits⟩

theorem atEnd_declare (hp : s.AtEnd p) : (s.declare p x v).1.AtEnd (s.declare p x v).2 := by
  obtain ⟨f, hf, hlen⟩ := hp
  unfold declare
  rw [hf]
  exact ⟨{ f with bindings := f.bindings.push (x, v) }, by simp [Array.getElem?_modify, hf], by simp⟩

/-- **Declaring at the end of a frame puts the binding in front of the view.** -/
theorem visible_declare (hwf : s.WF) (hp : s.AtEnd p) :
    (s.declare p x v).1.visible (s.declare p x v).2 = (x, v) :: s.visible p := by
  obtain ⟨f, hf, hlen⟩ := hp
  have hnew : (s.declare p x v).1.frames[p.frame]? =
      some { f with bindings := f.bindings.push (x, v) } := by
    unfold declare
    simp [hf, Array.getElem?_modify]
  have hpoint : (s.declare p x v).2 = { p with len := f.bindings.size + 1 } := by
    unfold declare
    rw [hf]
  rw [hpoint, visible, visible, hf]
  simp only at hnew ⊢
  rw [hnew]
  -- the whole frame is visible, the new binding last, so first in the view
  have hall : f.bindings.toList.take p.len = f.bindings.toList := by
    rw [hlen]
    simp
  simp only [Array.toList_push, hall]
  rw [List.take_of_length_le (by simp), List.reverse_append]
  simp only [List.reverse_cons, List.reverse_nil, List.nil_append, List.cons_append,
    List.cons.injEq, true_and]
  congr 1
  cases hq : f.parent with
  | none => rfl
  | some q =>
    simp only
    split
    · exact visible_of_extends hwf declare_extends q (hwf _ f hf q hq).2
    · rfl

end Declare

end Scopes

/-! ## The scope of a lowering run -/

namespace Lowering

variable (st : Lowering)

@[simp] theorem newVariable_scopes (var : Variable) : (st.newVariable var).1.scopes = st.scopes :=
  rfl

@[simp] theorem newVariable_point (var : Variable) : (st.newVariable var).1.point = st.point := rfl

@[simp] theorem declare_scopes (name : String) (var : Nat) :
    (st.declare name var).scopes = (st.scopes.declare st.point name var).1 := rfl

@[simp] theorem declare_point (name : String) (var : Nat) :
    (st.declare name var).point = (st.scopes.declare st.point name var).2 := rfl

@[simp] theorem openScope_scopes : st.openScope.scopes = (st.scopes.openFrame st.point).1 := rfl

@[simp] theorem openScope_point : st.openScope.point = (st.scopes.openFrame st.point).2 := rfl

@[simp] theorem restore_scopes (p : ScopePoint) : (st.restore p).scopes = st.scopes := rfl

@[simp] theorem restore_point (p : ScopePoint) : (st.restore p).point = p := rfl

end Lowering

end ReachingDefs
