import Mathlib.Logic.Relation
import ReachingDefs.Proofs.Cfg.Resolution

/-!
# Frames grow only while they are innermost

Lowering saves its position before a block, a branch or a loop body, opens a frame below it,
and comes back to the saved position afterwards. That describes scoping only if the frame of the
saved position did not grow in the meantime: a binding added there later would show through at
positions recorded before it. It never does. Throughout a lowering run the tree is well formed
(every frame was opened at a position of an older frame, and that position fits its frame), the
current position is at the end of its frame, where the next binding goes, and every recorded
position fits its frame (`Lowering.Nested`). Lowering a statement keeps this, and leaves every
frame but the one it started in as it was (`Lowering.Confined`), so the saved position is again
at the end of its frame when lowering comes back to it.

Two things follow. A declaration is visible at the position after it and changes the view of no
position recorded before it (`Lowering.Nested.declare_visible`). And a look-up, run as the loop
it is (`Scopes.walk`), climbs only to older frames and to positions that fit, so it ends within
one round per frame up to its start and never cuts a position's length short
(`Scopes.walk_eq_lookup`, `Scopes.WF.fits_of_climbs`).

## Main definitions

* `Scopes.walk`: the look-up as a loop over a cursor, for a number of rounds
* `Scopes.Climbs`: the positions a look-up climbs to
* `Lowering.Nested`: what holds throughout a lowering run
* `Lowering.Confined`: what lowering a statement leaves alone

## Main results

* `Scopes.walk_eq_lookup`: the loop ends and answers as `lookup`
* `Lowering.lower_nested`: lowering any statement keeps the invariant
* `Lowering.lower_frames_nested`: the whole discipline, for every run
-/

namespace ReachingDefs

namespace Scopes

/-! ## The look-up as a loop -/

/-- The look-up as a loop: a cursor starts at a position, reads the first `min len size`
bindings of its frame, latest first, and moves to the position the frame was opened at, for at
most `rounds` rounds. `none` when the rounds run out; otherwise the loop's answer. -/
def walk (s : Scopes) (name : String) : Nat → Option ScopePoint → Option (Option Nat)
  | _, none => some none
  | 0, some _ => none
  | rounds + 1, some p =>
    match s.frames[p.frame]? with
    | none => some none
    | some f =>
      match Bindings.lookup (f.bindings.toList.take (min p.len f.bindings.size)).reverse name with
      | some id => some (some id)
      | none => s.walk name rounds f.parent

/-- One move of a look-up: from a position to the position its frame was opened at. -/
def Up (s : Scopes) (p q : ScopePoint) : Prop :=
  ∃ f : Frame, s.frames[p.frame]? = some f ∧ f.parent = some q

/-- The positions a look-up from `p` climbs to: `p`, and every position up its chain of
parents. -/
def Climbs (s : Scopes) (p : ScopePoint) : ScopePoint → Prop :=
  Relation.ReflTransGen s.Up p

variable {s : Scopes}

/-- In a well-formed tree a move goes to an older frame, at a position that fits it. -/
theorem WF.up (hwf : s.WF) {p q : ScopePoint} (h : s.Up p q) : q.frame < p.frame ∧ s.Fits q := by
  obtain ⟨f, hf, hq⟩ := h
  exact hwf p.frame f hf q hq

/-- **A look-up climbs only to fitting positions**, in frames no younger than its start, so the
clamp `min len size` never cuts a length short. -/
theorem WF.fits_of_climbs (hwf : s.WF) {p q : ScopePoint} (hp : s.Fits p) (h : s.Climbs p q) :
    s.Fits q ∧ q.frame ≤ p.frame := by
  induction h with
  | refl => exact ⟨hp, Nat.le_refl _⟩
  | tail _ hup ih =>
    obtain ⟨hlt, hfits⟩ := hwf.up hup
    exact ⟨hfits, by omega⟩

/-- **The look-up loop ends, and answers as `lookup`.** In a well-formed tree, from a position
that fits, the loop ends within one round per frame up to the position's own: each round moves to
an older frame. The guard of `lookup` against a parent that is not older never fires. -/
theorem walk_eq_lookup (hwf : s.WF) (name : String) (p : ScopePoint) (hp : s.Fits p)
    {rounds : Nat} (hr : p.frame < rounds) :
    s.walk name rounds (some p) = some (s.lookup p name) := by
  obtain ⟨n, rfl⟩ : ∃ n, rounds = n + 1 := ⟨rounds - 1, by omega⟩
  fun_induction s.lookup p name generalizing n with
  | case1 p hf =>
    simp [walk, hf]
  | case2 p f hf id hid =>
    obtain ⟨g, hg, hlen⟩ := hp
    obtain rfl : g = f := Option.some.inj (hg.symm.trans hf)
    simp [walk, hf, Nat.min_eq_left hlen, hid]
  | case3 p f hf hid hpar =>
    obtain ⟨g, hg, hlen⟩ := hp
    obtain rfl : g = f := Option.some.inj (hg.symm.trans hf)
    simp [walk, hf, Nat.min_eq_left hlen, hid, hpar]
  | case4 p f hf hid q hpar hlt ih =>
    obtain ⟨g, hg, hlen⟩ := hp
    obtain rfl : g = f := Option.some.inj (hg.symm.trans hf)
    -- the parent fits, in an older frame, so the rounds left suffice for it
    have hq : s.Fits q := (hwf p.frame g hf q hpar).2
    obtain ⟨m, rfl⟩ : ∃ m, n = m + 1 := ⟨n - 1, by omega⟩
    simp only [walk, hf, Nat.min_eq_left hlen, hid, hpar]
    exact ih hq m (by omega)
  | case5 p f hf hid q hpar hnot =>
    exact absurd (hwf p.frame f hf q hpar).1 hnot

/-- A frame opened below a binding of `x`, before its own binding of `x`: the loop climbs from the
fresh frame to the root and finds the outer binding in its second round. -/
example :
    let s := ((Scopes.new.1.declare ⟨0, 0⟩ "x" 0).1.openFrame ⟨0, 1⟩).1.declare ⟨1, 0⟩ "x" 1
    s.1.walk "x" 2 (some ⟨1, 0⟩) = some (some 0) ∧ s.1.walk "x" 2 (some s.2) = some (some 1) := by
  decide

end Scopes

namespace Lowering

/-! ## The invariant and what a statement leaves alone -/

/-- **What holds throughout a lowering run.** The tree is well formed, the position is at the
end of its frame, where the next binding goes, and every recorded position fits its frame. -/
structure Nested (st : Lowering) : Prop where
  wf : st.scopes.WF
  atEnd : st.scopes.AtEnd st.point
  recorded : ∀ q ∈ st.scopes.atNode, st.scopes.Fits q

/-- What lowering a statement from `st` leaves alone: the position ends in the frame it started
in, no frame goes away, and every frame of `st` other than the position's is as it was. -/
structure Confined (st st' : Lowering) : Prop where
  frame : st'.point.frame = st.point.frame
  size_le : st.scopes.frames.size ≤ st'.scopes.frames.size
  others : ∀ i < st.scopes.frames.size, i ≠ st.point.frame →
    st'.scopes.frames[i]? = st.scopes.frames[i]?

variable {st st' st'' : Lowering}

namespace Confined

theorem refl (st : Lowering) : st.Confined st := ⟨rfl, Nat.le_refl _, fun _ _ _ => rfl⟩

theorem trans (h : st.Confined st') (h' : st'.Confined st'') : st.Confined st'' where
  frame := h'.frame.trans h.frame
  size_le := h.size_le.trans h'.size_le
  others i hi hne := by
    rw [h'.others i (Nat.lt_of_lt_of_le hi h.size_le) (h.frame ▸ hne), h.others i hi hne]

/-- A step that keeps the frames and the position. -/
theorem of_frames_eq (hframes : st'.scopes.frames = st.scopes.frames)
    (hpoint : st'.point = st.point) : st.Confined st' where
  frame := by rw [hpoint]
  size_le := by rw [hframes]
  others _ _ _ := by rw [hframes]

end Confined

namespace Nested

/-- A step that keeps the frames and the position, and records at most the position. -/
theorem of_frames_eq (h : st.Nested) (hframes : st'.scopes.frames = st.scopes.frames)
    (hpoint : st'.point = st.point)
    (hatNode : ∀ q ∈ st'.scopes.atNode, q ∈ st.scopes.atNode ∨ q = st.point) :
    st'.Nested ∧ st.Confined st' := by
  have hfits : ∀ q, st.scopes.Fits q → st'.scopes.Fits q := fun q ⟨f, hf, hlen⟩ =>
    ⟨f, by rw [hframes, hf], hlen⟩
  refine ⟨⟨Scopes.WF.of_frames_eq h.wf hframes.symm, ?_, fun q hq => ?_⟩,
    Confined.of_frames_eq hframes hpoint⟩
  · obtain ⟨f, hf, hlen⟩ := h.atEnd
    exact ⟨f, by rw [hframes, hpoint, hf], by rw [hpoint, hlen]⟩
  · rcases hatNode q hq with hq | rfl
    · exact hfits q (h.recorded q hq)
    · exact hfits _ h.atEnd.fits

/-- Adding a node records the position, which fits. -/
theorem addNode (h : st.Nested) (n : CfgNode) (P : Pending) :
    (st.addNode n P).1.Nested ∧ st.Confined (st.addNode n P).1 :=
  h.of_frames_eq (by simp) (by simp) fun q hq => by simpa [or_comm] using hq

/-- Moving the address cursor touches nothing of the tree. -/
theorem advance (h : st.Nested) : st.advance.Nested ∧ st.Confined st.advance :=
  h.of_frames_eq rfl rfl fun _ hq => Or.inl hq

theorem newVariable (h : st.Nested) (var : Variable) :
    (st.newVariable var).1.Nested ∧ st.Confined (st.newVariable var).1 :=
  h.of_frames_eq rfl rfl fun _ hq => Or.inl hq

theorem bind (h : st.Nested) (node var : Nat) :
    (st.bind node var).Nested ∧ st.Confined (st.bind node var) :=
  h.of_frames_eq rfl rfl fun _ hq => Or.inl hq

theorem connect (h : st.Nested) (P : Pending) (t : Nat) :
    (st.connect P t).Nested ∧ st.Confined (st.connect P t) :=
  h.of_frames_eq (by simp) (by simp) fun _ hq => Or.inl (by simpa using hq)

theorem resolve (h : st.Nested) (name : String) :
    (st.resolve name).1.Nested ∧ st.Confined (st.resolve name).1 := by
  obtain ⟨hframes, hatNode, hpoint⟩ := resolve_scopes st name
  exact h.of_frames_eq hframes hpoint fun _ hq => Or.inl (hatNode ▸ hq)

/-- Declaring at the end of the position's frame keeps the tree well formed and moves the
position to the new end; a recorded position still fits, since the frame only grew. -/
theorem declare (h : st.Nested) (name : String) (var : Nat) :
    (st.declare name var).Nested ∧ st.Confined (st.declare name var) := by
  refine ⟨⟨?_, ?_, fun q hq => ?_⟩, ⟨?_, ?_, fun i _ hne => ?_⟩⟩
  · simpa using h.wf.declare
  · simpa using Scopes.atEnd_declare h.atEnd
  · simp only [declare_scopes, Scopes.declare_atNode] at hq ⊢
    exact Scopes.declare_extends.fits (h.recorded q hq)
  · simp
  · simp
  · simpa using Scopes.getElem?_declare_frames_of_ne hne

/-- **A declaration is visible after it and nowhere before it.** Declared at the end of the
position's frame, the binding is in front of the view of the position after it, and the view of
every position recorded so far is as it was. -/
theorem declare_visible (h : st.Nested) (name : String) (var : Nat) :
    (st.declare name var).scopes.visible (st.declare name var).point =
        (name, var) :: st.scopes.visible st.point ∧
      ∀ q ∈ st.scopes.atNode, (st.declare name var).scopes.visible q = st.scopes.visible q := by
  refine ⟨by simpa using Scopes.visible_declare h.wf h.atEnd, fun q hq => ?_⟩
  rw [declare_scopes]
  exact Scopes.visible_of_extends h.wf Scopes.declare_extends q (h.recorded q hq)

/-- **A declaration is visible exactly at the positions recorded after it.** Lowering a
declaration records its node at the old position and then binds the name there: the view of that
position, and of every position recorded before, is as it was, and the position after it has the
new binding in front. -/
theorem lower_declare_visible (h : st.Nested) (name : String) (init : Option Expr)
    (inc : Pending) :
    let st' := (lower (.declare name init) inc st).2
    st'.scopes.visible st'.point = (name, st.vars.size) :: st.scopes.visible st.point ∧
      ∀ q ∈ st'.scopes.atNode, st'.scopes.visible q = st.scopes.visible q := by
  intro st'
  let node : CfgNode := ⟨some (.declare name init), .declare, none, some st.next⟩
  -- the state the name is declared in: the node recorded, its variable made
  let st₂ := ((st.advance.addNode node inc).1.newVariable
    ⟨name, .declared, some (st.advance.addNode node inc).2⟩).1
  have h₂ : st₂.Nested := ((h.advance.1.addNode node inc).1.newVariable _).1
  have hst' : st' =
      (st₂.declare name st.vars.size).bind (st.advance.addNode node inc).2 st.vars.size := by
    simp [st', st₂, node, lower, Lowering.newVariable]
  obtain ⟨hnew, hold⟩ := h₂.declare_visible name st.vars.size
  rw [hst', bind_scopes, bind_point, hnew]
  refine ⟨by simp [st₂], fun q hq => ?_⟩
  simp only [declare_scopes, Scopes.declare_atNode] at hq
  rw [hold q hq]
  simp [st₂]

/-- Opening a frame below the position: the fresh frame is the position's, and it is empty. -/
theorem openScope (h : st.Nested) : st.openScope.Nested where
  wf := by simpa using h.wf.openFrame h.atEnd.fits
  atEnd := by simpa using Scopes.atEnd_openFrame
  recorded q hq := by
    simp only [openScope_scopes, Scopes.openFrame_atNode] at hq ⊢
    exact Scopes.openFrame_extends.fits (h.recorded q hq)

/-- **Back at a saved position.** After lowering from a frame opened below the position of `st`,
every frame of `st` is as it was, so that position is again at the end of its frame. -/
theorem restore (h : st.Nested) (hc : st.openScope.Confined st') (h' : st'.Nested) :
    (st'.restore st.point).Nested ∧ st.Confined (st'.restore st.point) := by
  have hlt : st.point.frame < st.scopes.frames.size := h.atEnd.fits.frame_lt
  -- the frames of `st` lie below the fresh frame, which is the only one lowering grew
  have hkept : ∀ i < st.scopes.frames.size, st'.scopes.frames[i]? = st.scopes.frames[i]? := by
    intro i hi
    have hi' : i < st.openScope.scopes.frames.size := by simp; omega
    rw [hc.others i hi' (by simp; omega)]
    simpa using Scopes.getElem?_openFrame_frames_lt hi
  obtain ⟨f, hf, hlen⟩ := h.atEnd
  refine ⟨⟨h'.wf, ⟨f, by rw [restore_scopes, restore_point, hkept _ hlt, hf], hlen⟩, h'.recorded⟩,
    ⟨rfl, ?_, fun i hi _ => hkept i hi⟩⟩
  have := hc.size_le
  simp only [openScope_scopes, Scopes.openFrame_frames, Array.size_push] at this
  simp only [restore_scopes]
  omega

end Nested

/-! ## Every statement -/

mutual

/-- **Lowering a statement keeps the invariant**, and ends with the position in the frame it
started in and every other frame as it was. -/
theorem lower_nested : ∀ (s : Stmt) (inc : Pending) (st : Lowering), st.Nested →
    (lower s inc st).2.Nested ∧ st.Confined (lower s inc st).2
  | .block items, inc, st, h => by
    obtain ⟨ha, hca⟩ := h.advance
    obtain ⟨h₁, hc₁⟩ := lowerAll_nested items inc st.advance.openScope ha.openScope
    obtain ⟨h₂, hc₂⟩ := ha.restore hc₁ h₁
    exact ⟨h₂, hca.trans hc₂⟩
  | .declare name init, inc, st, h => by
    let node : CfgNode := ⟨some (.declare name init), .declare, none, some st.next⟩
    obtain ⟨ha, hca⟩ := h.advance
    obtain ⟨h₁, hc₁⟩ := ha.addNode node inc
    obtain ⟨h₂, hc₂⟩ := h₁.newVariable ⟨name, .declared, some (st.advance.addNode node inc).2⟩
    obtain ⟨h₃, hc₃⟩ := h₂.declare name (st.advance.addNode node inc).1.vars.size
    obtain ⟨h₄, hc₄⟩ :=
      h₃.bind (st.advance.addNode node inc).2 (st.advance.addNode node inc).1.vars.size
    exact ⟨h₄, hca.trans (hc₁.trans (hc₂.trans (hc₃.trans hc₄)))⟩
  | .assign name value, inc, st, h => by
    let node : CfgNode := ⟨some (.assign name value), .assign, none, some st.next⟩
    obtain ⟨ha, hca⟩ := h.advance
    obtain ⟨h₁, hc₁⟩ := ha.addNode node inc
    obtain ⟨h₂, hc₂⟩ := h₁.resolve name
    obtain ⟨h₃, hc₃⟩ :=
      h₂.bind (st.advance.addNode node inc).2 ((st.advance.addNode node inc).1.resolve name).2
    exact ⟨h₃, hca.trans (hc₁.trans (hc₂.trans hc₃))⟩
  | .ifThen c t, inc, st, h => by
    let node : CfgNode := ⟨some (.ifThen c t), .branch, none, some st.next⟩
    obtain ⟨ha, hca⟩ := h.advance
    obtain ⟨h₁, hc₁⟩ := ha.addNode node inc
    obtain ⟨h₂, hc₂⟩ :=
      lower_nested t [((st.advance.addNode node inc).2, .onTrue)] _ h₁.openScope
    obtain ⟨h₃, hc₃⟩ := h₁.restore hc₂ h₂
    exact ⟨h₃, hca.trans (hc₁.trans hc₃)⟩
  | .ifElse c t e, inc, st, h => by
    let node : CfgNode := ⟨some (.ifElse c t e), .branch, none, some st.next⟩
    obtain ⟨ha, hca⟩ := h.advance
    obtain ⟨h₁, hc₁⟩ := ha.addNode node inc
    -- the then-branch and back, then the else-branch from the same position and back
    obtain ⟨h₂, hc₂⟩ :=
      lower_nested t [((st.advance.addNode node inc).2, .onTrue)] _ h₁.openScope
    obtain ⟨h₃, hc₃⟩ := h₁.restore hc₂ h₂
    obtain ⟨h₄, hc₄⟩ :=
      lower_nested e [((st.advance.addNode node inc).2, .onFalse)] _ h₃.openScope
    obtain ⟨h₅, hc₅⟩ := h₃.restore hc₄ h₄
    exact ⟨h₅, hca.trans (hc₁.trans (hc₃.trans hc₅))⟩
  | .loop c body, inc, st, h => by
    let node : CfgNode := ⟨some (.loop c body), .loop, none, some st.next⟩
    obtain ⟨ha, hca⟩ := h.advance
    obtain ⟨h₁, hc₁⟩ := ha.addNode node inc
    obtain ⟨h₂, hc₂⟩ :=
      lower_nested body [((st.advance.addNode node inc).2, .onTrue)] _ h₁.openScope
    obtain ⟨h₃, hc₃⟩ := h₁.restore hc₂ h₂
    obtain ⟨h₄, hc₄⟩ := h₃.connect
      ((lower body [((st.advance.addNode node inc).2, .onTrue)]
        (st.advance.addNode node inc).1.openScope).1.map
          fun (source, _) => (source, EdgeKind.loopBack)) (st.advance.addNode node inc).2
    exact ⟨h₄, hca.trans (hc₁.trans (hc₃.trans hc₄))⟩
  | .ret v, inc, st, h => by
    let node : CfgNode := ⟨some (.ret v), .ret, none, some st.next⟩
    obtain ⟨ha, hca⟩ := h.advance
    obtain ⟨h₁, hc₁⟩ := ha.addNode node inc
    -- noting the return changes nothing of the tree
    have h₂ : (lower (.ret v) inc st).2.Nested ∧
        (st.advance.addNode node inc).1.Confined (lower (.ret v) inc st).2 :=
      h₁.of_frames_eq rfl rfl fun _ hq => Or.inl hq
    exact ⟨h₂.1, hca.trans (hc₁.trans h₂.2)⟩
  | .expr v, inc, st, h => by
    obtain ⟨ha, hca⟩ := h.advance
    obtain ⟨h₁, hc₁⟩ := ha.addNode ⟨some (.expr v), .expr, none, some st.next⟩ inc
    exact ⟨h₁, hca.trans hc₁⟩

/-- Lowering a sequence keeps the invariant, item after item. -/
theorem lowerAll_nested : ∀ (items : List Stmt) (inc : Pending) (st : Lowering), st.Nested →
    (lowerAll items inc st).2.Nested ∧ st.Confined (lowerAll items inc st).2
  | [], _, st, h => ⟨h, Confined.refl st⟩
  | s :: rest, inc, st, h => by
    obtain ⟨h₁, hc₁⟩ := lower_nested s inc st h
    obtain ⟨h₂, hc₂⟩ := lowerAll_nested rest _ _ h₁
    exact ⟨h₂, hc₁.trans hc₂⟩

end

/-! ## The parameters, and the whole run -/

theorem Nested.declareParam (h : st.Nested) (name : String) : (st.declareParam name).Nested :=
  ((h.newVariable _).1.declare name _).1

/-- Declaring the parameters keeps the invariant from the root frame alone on: each parameter is
declared at the end of the root frame. -/
theorem ofParams_nested (params : List String) : (ofParams params).Nested := by
  have hstart : ({} : Lowering).Nested :=
    ⟨Scopes.new_wf, Scopes.new_atEnd, fun q hq => by simp [Scopes.new] at hq⟩
  suffices ∀ st : Lowering, st.Nested → (params.foldl declareParam st).Nested from
    this {} hstart
  induction params with
  | nil => exact fun _ h => h
  | cons name rest ih => exact fun st h => ih _ (h.declareParam name)

/-- The positions a run stands at or has recorded are the ones it looks up from: the look-up
loop ends there and answers as `lookup`, climbing only to fitting positions. -/
theorem Nested.walk_eq_lookup (h : st.Nested) {p : ScopePoint}
    (hp : p = st.point ∨ p ∈ st.scopes.atNode) (name : String) :
    st.scopes.walk name (p.frame + 1) (some p) = some (st.scopes.lookup p name) ∧
      ∀ q, st.scopes.Climbs p q → st.scopes.Fits q ∧ q.frame ≤ p.frame := by
  have hfits : st.scopes.Fits p := by
    rcases hp with rfl | hp
    · exact h.atEnd.fits
    · exact h.recorded p hp
  exact ⟨Scopes.walk_eq_lookup h.wf name p hfits (Nat.lt_succ_self _),
    fun q hq => h.wf.fits_of_climbs hfits hq⟩

end Lowering

namespace Procedure

/-- **The tree of a procedure's graph is well formed, and every node's position fits.** The body
is lowered below the parameters, the position goes back to theirs, and the exit node is recorded
there. -/
theorem lower_scopes_nested (p : Procedure) :
    p.lower.scopes.WF ∧ ∀ q ∈ p.lower.scopes.atNode, p.lower.scopes.Fits q := by
  have h₀ := Lowering.ofParams_nested p.params
  obtain ⟨h₁, hc₁⟩ := Lowering.lower_nested p.body [] _ h₀.openScope
  obtain ⟨h₂, -⟩ := h₀.restore hc₁ h₁
  obtain ⟨h₃, -⟩ := h₂.addNode CfgNode.exitNode []
  rw [lower_scopes]
  exact ⟨h₃.wf, h₃.recorded⟩

end Procedure

namespace Lowering

/-- **Frames grow only while they are innermost.** Throughout every lowering run:
* declaring the parameters, every prefix of them, keeps the invariant: the tree is well formed,
  so every frame's parent position lies in an older frame and shows no more bindings than that
  frame holds; the position is at the end of its frame; every recorded position fits;
* lowering any statement from such a state keeps it, ending in the frame it started in with every
  other frame as it was, so a saved position is at the end of its frame again;
* a declaration lowered from such a state is declared where the position shows its whole frame:
  the binding is in front of the view after it, and no position recorded up to its own node sees a
  change;
* a look-up from the position or from a recorded one, run as a loop, ends within one round per
  frame up to its start and answers as `lookup`, climbing only to positions that fit, so its
  clamp never cuts;
* so in the tree of every built graph, the look-up at every node ends the same way. -/
theorem lower_frames_nested :
    (∀ params : List String, (ofParams params).Nested) ∧
    (∀ (s : Stmt) (inc : Pending) (st : Lowering), st.Nested →
      (lower s inc st).2.Nested ∧ st.Confined (lower s inc st).2) ∧
    (∀ (st : Lowering) (name : String) (init : Option Expr) (inc : Pending), st.Nested →
      st.scopes.AtEnd st.point ∧
      (lower (.declare name init) inc st).2.scopes.visible (lower (.declare name init) inc st).2.point =
        (name, st.vars.size) :: st.scopes.visible st.point ∧
      ∀ q ∈ (lower (.declare name init) inc st).2.scopes.atNode,
        (lower (.declare name init) inc st).2.scopes.visible q = st.scopes.visible q) ∧
    (∀ st : Lowering, st.Nested → ∀ p, (p = st.point ∨ p ∈ st.scopes.atNode) → ∀ name,
      st.scopes.walk name (p.frame + 1) (some p) = some (st.scopes.lookup p name) ∧
      ∀ q, st.scopes.Climbs p q → st.scopes.Fits q ∧ q.frame ≤ p.frame) ∧
    (∀ (p : Procedure) (cfg : ControlFlowGraph), p.build = .ok cfg →
      cfg.scopes.WF ∧ ∀ q ∈ cfg.scopes.atNode, ∀ name,
        cfg.scopes.walk name (q.frame + 1) (some q) = some (cfg.scopes.lookup q name)) := by
  refine ⟨ofParams_nested, lower_nested,
    fun st name init inc h => ⟨h.atEnd, h.lower_declare_visible name init inc⟩,
    fun st h p hp name => h.walk_eq_lookup hp name, fun p cfg hbuild => ?_⟩
  obtain ⟨-, rfl⟩ := Procedure.build_eq_ok.mp hbuild
  obtain ⟨hwf, hrec⟩ := p.lower_scopes_nested
  exact ⟨hwf, fun q hq name => Scopes.walk_eq_lookup hwf name q (hrec q hq) (Nat.lt_succ_self _)⟩

end Lowering

end ReachingDefs
