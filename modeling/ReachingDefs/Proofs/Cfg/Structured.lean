import Mathlib.Logic.Relation
import ReachingDefs.Proofs.Cfg.EdgeRules
import ReachingDefs.Proofs.Cfg.Layout

/-!
# Structured control flow

The rules draw the edges of a statement numbered from `b` that continues to `c` so that control
runs forward through the program text: an edge goes to a later node unless it closes a loop, and
an edge that closes a loop of the statement goes from one of that loop's nodes back to its head.
Control enters a statement only at its first node, so the body of a loop is entered only from
the loop's head. Every node of a statement but a return has an edge out, and from every node
control goes on to the continuation or to a return.

## Main definitions

* `Stmt.ClosesLoop`: an edge from a node of a loop of the statement to that loop's head
* `FlowsOut`: along a list of edges, a node leads to a target or to a return

## Main results

* `Stmt.flowEdges_forward`: an edge that does not close a loop goes to a later node
* `Stmt.flowEdges_loopBack`: an edge that closes a loop closes the continuation's loop or one of
  the statement's own
* `Stmt.Occurs.flowEdges_entry`: an edge into an inner statement past its first node comes from
  that statement's nodes
* `Stmt.flowEdges_out`, `Stmt.flowEdges_flowsOut`: every node has an edge out or is a return,
  and leads to the continuation or to a return
-/

namespace ReachingDefs

/-! ## Continuations and entries -/

/-- An edge of a kind the rules draw closes a loop exactly when its continuation does. -/
theorem Cont.kind_eq_loopBack {c : Cont} {k : EdgeKind} (hk : k ≠ .loopBack) :
    c.kind k = .loopBack ↔ c.viaLoop = true := by
  unfold Cont.kind
  split <;> simp_all

/-- An edge from `v` to a continuation past `v` goes forward unless it closes a loop. -/
theorem Cont.lt_target {c : Cont} {k : EdgeKind} {v : Nat} (hk : k ≠ .loopBack)
    (hc : c.viaLoop = false → v < c.target) (h : c.kind k ≠ .loopBack) : v < c.target :=
  hc (by simpa [Cont.kind_eq_loopBack hk] using h)

/-- Control enters a statement at its first node, or goes straight on when it has none. -/
theorem Stmt.enter_cases (s : Stmt) (b : Nat) (c : Cont) :
    (s.enter b c = ⟨b, false⟩ ∧ 0 < s.nodeCount) ∨ s.enter b c = c := by
  rw [Stmt.enter_eq]
  split
  · exact Or.inr rfl
  · exact Or.inl ⟨rfl, by omega⟩

theorem Stmt.enterAll_cases (items : List Stmt) (b : Nat) (c : Cont) :
    (Stmt.enterAll items b c = ⟨b, false⟩ ∧ 0 < Stmt.nodeCountAll items) ∨
      Stmt.enterAll items b c = c := by
  rw [Stmt.enterAll_eq]
  split
  · exact Or.inr rfl
  · exact Or.inl ⟨rfl, by omega⟩

/-- Where control enters a statement: its first node, or the continuation. -/
theorem Stmt.enter_target (s : Stmt) (b : Nat) (c : Cont) :
    ((s.enter b c).target = b ∧ 0 < s.nodeCount) ∨ (s.enter b c).target = c.target := by
  rcases s.enter_cases b c with ⟨he, hn⟩ | he
  · exact Or.inl ⟨by rw [he], hn⟩
  · exact Or.inr (by rw [he])

theorem Stmt.enterAll_target (items : List Stmt) (b : Nat) (c : Cont) :
    ((Stmt.enterAll items b c).target = b ∧ 0 < Stmt.nodeCountAll items) ∨
      (Stmt.enterAll items b c).target = c.target := by
  rcases Stmt.enterAll_cases items b c with ⟨he, hn⟩ | he
  · exact Or.inl ⟨by rw [he], hn⟩
  · exact Or.inr (by rw [he])

theorem mem_branchEdges {b : Nat} {T F : Cont} {x : Nat × Nat × EdgeKind}
    (h : x ∈ branchEdges b T F) :
    x = (b, T.target, T.kind .onTrue) ∨ x = (b, F.target, F.kind .onFalse) := by
  unfold branchEdges at h
  split at h <;> simp_all

theorem true_mem_branchEdges (b : Nat) (T F : Cont) :
    (b, T.target, T.kind .onTrue) ∈ branchEdges b T F := by
  unfold branchEdges
  split <;> simp

/-! ## Where the edges go -/

mutual

/-- The edges a statement draws go to its own nodes or to its continuation. -/
theorem Stmt.flowEdges_target : ∀ (s : Stmt) (b : Nat) (c : Cont),
    ∀ x ∈ s.flowEdges b c, (b ≤ x.2.1 ∧ x.2.1 < b + s.nodeCount) ∨ x.2.1 = c.target
  | .block items, b, c => Stmt.flowEdgesAll_target items b c
  | .declare _ _, b, c | .assign _ _, b, c | .expr _, b, c => by simp [Stmt.flowEdges]
  | .ret _, b, c => by simp [Stmt.flowEdges]
  | .ifThen _ t, b, c => by
    intro x hx
    simp only [Stmt.flowEdges, List.mem_append] at hx
    simp only [Stmt.nodeCount]
    rcases hx with hx | hx
    · rcases mem_branchEdges hx with rfl | rfl
      · have := t.enter_target (b + 1) c
        dsimp only
        omega
      · exact Or.inr rfl
    · have := Stmt.flowEdges_target t (b + 1) c x hx
      omega
  | .ifElse _ t e, b, c => by
    intro x hx
    simp only [Stmt.flowEdges, List.mem_append] at hx
    simp only [Stmt.nodeCount]
    rcases hx with hx | hx | hx
    · have := t.enter_target (b + 1) c
      have := e.enter_target (b + 1 + t.nodeCount) c
      rcases mem_branchEdges hx with rfl | rfl <;> dsimp only <;> omega
    · have := Stmt.flowEdges_target t (b + 1) c x hx
      omega
    · have := Stmt.flowEdges_target e (b + 1 + t.nodeCount) c x hx
      omega
  | .loop _ body, b, c => by
    intro x hx
    simp only [Stmt.flowEdges, List.mem_cons] at hx
    simp only [Stmt.nodeCount]
    rcases hx with rfl | rfl | hx
    · have := body.enter_target (b + 1) ⟨b, true⟩
      dsimp only at this ⊢
      omega
    · exact Or.inr rfl
    · -- the body goes back to the loop's head
      have := Stmt.flowEdges_target body (b + 1) ⟨b, true⟩ x hx
      dsimp only at this
      omega

theorem Stmt.flowEdgesAll_target : ∀ (items : List Stmt) (b : Nat) (c : Cont),
    ∀ x ∈ Stmt.flowEdgesAll items b c,
      (b ≤ x.2.1 ∧ x.2.1 < b + Stmt.nodeCountAll items) ∨ x.2.1 = c.target
  | [], b, c => by simp [Stmt.flowEdgesAll]
  | s :: rest, b, c => by
    intro x hx
    simp only [Stmt.flowEdgesAll, List.mem_append] at hx
    simp only [Stmt.nodeCountAll]
    rcases hx with hx | hx
    · have := Stmt.flowEdges_target s b _ x hx
      have := Stmt.enterAll_target rest (b + s.nodeCount) c
      omega
    · have := Stmt.flowEdgesAll_target rest (b + s.nodeCount) c x hx
      omega

end

/-! ## Forward edges -/

mutual

/-- **An edge that does not close a loop goes forward.** Given a continuation past the statement
unless it closes a loop, every edge the statement draws that is not a loop-back edge goes to a
later node. -/
theorem Stmt.flowEdges_forward : ∀ (s : Stmt) (b : Nat) (c : Cont),
    (c.viaLoop = false → b + s.nodeCount ≤ c.target) →
    ∀ x ∈ s.flowEdges b c, x.2.2 ≠ .loopBack → x.1 < x.2.1
  | .block items, b, c, hc => Stmt.flowEdgesAll_forward items b c hc
  | .declare _ _, b, c, hc | .assign _ _, b, c, hc | .expr _, b, c, hc => by
    simp only [Stmt.flowEdges, List.mem_singleton]
    rintro x rfl hk
    refine Cont.lt_target (by decide) (fun h => ?_) hk
    have := hc h
    simp only [Stmt.nodeCount] at this
    omega
  | .ret _, _, _, _ => by simp [Stmt.flowEdges]
  | .ifThen _ t, b, c, hc => by
    intro x hx hk
    simp only [Stmt.flowEdges, List.mem_append] at hx
    simp only [Stmt.nodeCount] at hc
    have hpast : c.viaLoop = false → b < c.target := fun h => by have := hc h; omega
    rcases hx with hx | hx
    · rcases mem_branchEdges hx with rfl | rfl
      · -- into the then branch, or past the conditional when the branch has no nodes
        rcases t.enter_cases (b + 1) c with ⟨he, _⟩ | he
        · simp only [he]
          omega
        · simp only [he] at hk ⊢
          exact Cont.lt_target (by decide) hpast hk
      · exact Cont.lt_target (by decide) hpast hk
    · exact Stmt.flowEdges_forward t (b + 1) c (fun h => by have := hc h; omega) x hx hk
  | .ifElse _ t e, b, c, hc => by
    intro x hx hk
    simp only [Stmt.flowEdges, List.mem_append] at hx
    simp only [Stmt.nodeCount] at hc
    have hpast : c.viaLoop = false → b < c.target := fun h => by have := hc h; omega
    rcases hx with hx | hx | hx
    · rcases mem_branchEdges hx with rfl | rfl
      · rcases t.enter_cases (b + 1) c with ⟨he, _⟩ | he
        · simp only [he]
          omega
        · simp only [he] at hk ⊢
          exact Cont.lt_target (by decide) hpast hk
      · rcases e.enter_cases (b + 1 + t.nodeCount) c with ⟨he, _⟩ | he
        · simp only [he]
          omega
        · simp only [he] at hk ⊢
          exact Cont.lt_target (by decide) hpast hk
    · exact Stmt.flowEdges_forward t (b + 1) c (fun h => by have := hc h; omega) x hx hk
    · exact Stmt.flowEdges_forward e (b + 1 + t.nodeCount) c (fun h => by have := hc h; omega)
        x hx hk
  | .loop _ body, b, c, hc => by
    intro x hx hk
    simp only [Stmt.flowEdges, List.mem_cons] at hx
    simp only [Stmt.nodeCount] at hc
    rcases hx with rfl | rfl | hx
    · -- into the body, or straight back to the head when the body has no nodes
      rcases body.enter_cases (b + 1) ⟨b, true⟩ with ⟨he, _⟩ | he
      · simp only [he]
        omega
      · simp [he, Cont.kind] at hk
    · exact Cont.lt_target (by decide) (fun h => by have := hc h; omega) hk
    · exact Stmt.flowEdges_forward body (b + 1) ⟨b, true⟩ (by simp) x hx hk

theorem Stmt.flowEdgesAll_forward : ∀ (items : List Stmt) (b : Nat) (c : Cont),
    (c.viaLoop = false → b + Stmt.nodeCountAll items ≤ c.target) →
    ∀ x ∈ Stmt.flowEdgesAll items b c, x.2.2 ≠ .loopBack → x.1 < x.2.1
  | [], _, _, _ => by simp [Stmt.flowEdgesAll]
  | s :: rest, b, c, hc => by
    intro x hx hk
    simp only [Stmt.flowEdgesAll, List.mem_append] at hx
    simp only [Stmt.nodeCountAll] at hc
    rcases hx with hx | hx
    · -- the first item continues to where the rest is entered
      refine Stmt.flowEdges_forward s b _ (fun h => ?_) x hx hk
      rcases Stmt.enterAll_cases rest (b + s.nodeCount) c with ⟨he, _⟩ | he
      · simp [he]
      · rw [he] at h ⊢
        have := hc h
        omega
    · exact Stmt.flowEdgesAll_forward rest _ c (fun h => by have := hc h; omega) x hx hk

end

/-! ## Loop-back edges -/

/-- The edge from `a` to `h` closes a loop of `s`, numbered from `b`: `h` heads a loop of `s`
and `a` is one of that loop's nodes. -/
def Stmt.ClosesLoop (s : Stmt) (b a h : Nat) : Prop :=
  ∃ cond body, Stmt.Occurs s b (.loop cond body) h ∧ h ≤ a ∧
    a < h + (Stmt.loop cond body).nodeCount

/-- A loop of an inner statement is a loop of the outer one. -/
theorem Stmt.ClosesLoop.lift {s t : Stmt} {b b₁ a h : Nat} (hsub : Stmt.Occurs s b t b₁)
    (hloop : t.ClosesLoop b₁ a h) : s.ClosesLoop b a h := by
  obtain ⟨cond, body, hocc, hle, hlt⟩ := hloop
  exact ⟨cond, body, hsub.trans hocc, hle, hlt⟩

mutual

/-- **Loop-back edges close loops.** An edge that closes a loop goes to the continuation, when
that closes a loop, or from one of the nodes of a loop of the statement back to its head. -/
theorem Stmt.flowEdges_loopBack : ∀ (s : Stmt) (b : Nat) (c : Cont),
    ∀ x ∈ s.flowEdges b c, x.2.2 = .loopBack →
      (c.viaLoop = true ∧ x.2.1 = c.target) ∨ s.ClosesLoop b x.1 x.2.1
  | .block items, b, c => Stmt.flowEdgesAll_loopBack items b c
  | .declare _ _, b, c | .assign _ _, b, c | .expr _, b, c => by
    simp only [Stmt.flowEdges, List.mem_singleton]
    rintro x rfl hk
    exact Or.inl ⟨(Cont.kind_eq_loopBack (by decide)).mp hk, rfl⟩
  | .ret _, _, _ => by simp [Stmt.flowEdges]
  | .ifThen cond t, b, c => by
    intro x hx hk
    simp only [Stmt.flowEdges, List.mem_append] at hx
    rcases hx with hx | hx
    · rcases mem_branchEdges hx with rfl | rfl
      · -- the true edge closes a loop only when it goes straight on
        rcases t.enter_cases (b + 1) c with ⟨he, _⟩ | he
        · simp [he, Cont.kind] at hk
        · simp only [he] at hk
          exact Or.inl ⟨(Cont.kind_eq_loopBack (by decide)).mp hk, by simp [he]⟩
      · exact Or.inl ⟨(Cont.kind_eq_loopBack (by decide)).mp hk, rfl⟩
    · exact (Stmt.flowEdges_loopBack t (b + 1) c x hx hk).imp_right
        (Stmt.ClosesLoop.lift (.ifThen (.here t (b + 1))))
  | .ifElse cond t e, b, c => by
    intro x hx hk
    simp only [Stmt.flowEdges, List.mem_append] at hx
    rcases hx with hx | hx | hx
    · rcases mem_branchEdges hx with rfl | rfl
      · rcases t.enter_cases (b + 1) c with ⟨he, _⟩ | he
        · simp [he, Cont.kind] at hk
        · simp only [he] at hk
          exact Or.inl ⟨(Cont.kind_eq_loopBack (by decide)).mp hk, by simp [he]⟩
      · rcases e.enter_cases (b + 1 + t.nodeCount) c with ⟨he, _⟩ | he
        · simp [he, Cont.kind] at hk
        · simp only [he] at hk
          exact Or.inl ⟨(Cont.kind_eq_loopBack (by decide)).mp hk, by simp [he]⟩
    · exact (Stmt.flowEdges_loopBack t (b + 1) c x hx hk).imp_right
        (Stmt.ClosesLoop.lift (.ifElse_then (.here t (b + 1))))
    · exact (Stmt.flowEdges_loopBack e (b + 1 + t.nodeCount) c x hx hk).imp_right
        (Stmt.ClosesLoop.lift (.ifElse_else (.here e (b + 1 + t.nodeCount))))
  | .loop cond body, b, c => by
    intro x hx hk
    simp only [Stmt.flowEdges, List.mem_cons] at hx
    -- the loop itself is closed at its head `b`, from any of its nodes
    have hself : ∀ a, b ≤ a → a < b + (Stmt.loop cond body).nodeCount →
        (Stmt.loop cond body).ClosesLoop b a b := fun a h₁ h₂ =>
      ⟨cond, body, .here _ b, h₁, h₂⟩
    rcases hx with rfl | rfl | hx
    · rcases body.enter_cases (b + 1) ⟨b, true⟩ with ⟨he, _⟩ | he
      · simp [he, Cont.kind] at hk
      · -- an empty body: the true edge goes straight back to the head
        simp only [he]
        exact Or.inr (hself b (Nat.le_refl b) (by simp [Stmt.nodeCount]))
    · exact Or.inl ⟨(Cont.kind_eq_loopBack (by decide)).mp hk, rfl⟩
    · rcases Stmt.flowEdges_loopBack body (b + 1) ⟨b, true⟩ x hx hk with ⟨-, hx'⟩ | hloop
      · -- back to this loop's head, from a node of its body
        have hsrc := Stmt.flowEdges_source body (b + 1) ⟨b, true⟩ x hx
        refine Or.inr ?_
        rw [hx']
        exact hself x.1 (by omega) (by simp only [Stmt.nodeCount]; omega)
      · exact Or.inr (hloop.lift (.loop (.here body (b + 1))))

theorem Stmt.flowEdgesAll_loopBack : ∀ (items : List Stmt) (b : Nat) (c : Cont),
    ∀ x ∈ Stmt.flowEdgesAll items b c, x.2.2 = .loopBack →
      (c.viaLoop = true ∧ x.2.1 = c.target) ∨ (Stmt.block items).ClosesLoop b x.1 x.2.1
  | [], _, _ => by simp [Stmt.flowEdgesAll]
  | s :: rest, b, c => by
    intro x hx hk
    simp only [Stmt.flowEdgesAll, List.mem_append] at hx
    rcases hx with hx | hx
    · rcases Stmt.flowEdges_loopBack s b _ x hx hk with ⟨hvia, hx'⟩ | hloop
      · -- the first item closes a loop only by going on past the block
        rcases Stmt.enterAll_cases rest (b + s.nodeCount) c with ⟨he, _⟩ | he
        · simp [he] at hvia
        · rw [he] at hvia hx'
          exact Or.inl ⟨hvia, hx'⟩
      · exact Or.inr (hloop.lift (.head (.here s b)))
    · exact (Stmt.flowEdgesAll_loopBack rest (b + s.nodeCount) c x hx hk).imp_right
        (Stmt.ClosesLoop.lift (.tail (.here (.block rest) (b + s.nodeCount))))

end

/-! ## Entering a statement -/

/-- **A statement is entered only at its first node.** Given a continuation out of `s`, an edge
of `s` that goes to a node of an inner statement past its first comes from that statement's
own nodes. -/
theorem Stmt.Occurs.flowEdges_entry {s T : Stmt} {b b' : Nat} (hT : Stmt.Occurs s b T b') :
    ∀ c : Cont, (c.target < b ∨ b + s.nodeCount ≤ c.target) →
      ∀ x ∈ s.flowEdges b c, b' < x.2.1 → x.2.1 < b' + T.nodeCount →
        b' ≤ x.1 ∧ x.1 < b' + T.nodeCount := by
  induction hT with
  | here s b =>
    intro c _ x hx _ _
    exact Stmt.flowEdges_source s b c x hx
  | @ifThen cond t b T b' h ih =>
    intro c hc x hx h₁ h₂
    have hr := h.range
    simp only [Stmt.nodeCount] at hc
    simp only [Stmt.flowEdges, List.mem_append] at hx
    rcases hx with hx | hx
    · -- the branch edges go to the then branch's first node or on, never past `T`'s first
      have := t.enter_target (b + 1) c
      rcases mem_branchEdges hx with rfl | rfl <;> dsimp only at h₁ h₂ <;> omega
    · exact ih c (by omega) x hx h₁ h₂
  | @ifElse_then cond t e b T b' h ih =>
    intro c hc x hx h₁ h₂
    have hr := h.range
    simp only [Stmt.nodeCount] at hc
    simp only [Stmt.flowEdges, List.mem_append] at hx
    rcases hx with hx | hx | hx
    · have := t.enter_target (b + 1) c
      have := e.enter_target (b + 1 + t.nodeCount) c
      rcases mem_branchEdges hx with rfl | rfl <;> dsimp only at h₁ h₂ <;> omega
    · exact ih c (by omega) x hx h₁ h₂
    · -- the else branch's edges stay among its own nodes or go on
      have := Stmt.flowEdges_target e (b + 1 + t.nodeCount) c x hx
      omega
  | @ifElse_else cond t e b T b' h ih =>
    intro c hc x hx h₁ h₂
    have hr := h.range
    simp only [Stmt.nodeCount] at hc
    simp only [Stmt.flowEdges, List.mem_append] at hx
    rcases hx with hx | hx | hx
    · have := t.enter_target (b + 1) c
      have := e.enter_target (b + 1 + t.nodeCount) c
      rcases mem_branchEdges hx with rfl | rfl <;> dsimp only at h₁ h₂ <;> omega
    · have := Stmt.flowEdges_target t (b + 1) c x hx
      omega
    · exact ih c (by omega) x hx h₁ h₂
  | @loop cond body b T b' h ih =>
    intro c hc x hx h₁ h₂
    have hr := h.range
    simp only [Stmt.nodeCount] at hc
    simp only [Stmt.flowEdges, List.mem_cons] at hx
    rcases hx with rfl | rfl | hx
    · have := body.enter_target (b + 1) ⟨b, true⟩
      dsimp only at this h₁ h₂
      omega
    · dsimp only at h₁ h₂
      omega
    · -- the body goes back to the head, which comes before `T`
      exact ih ⟨b, true⟩ (Or.inl (Nat.lt_succ_self b)) x hx h₁ h₂
  | @head s rest b T b' h ih =>
    intro c hc x hx h₁ h₂
    have hr := h.range
    simp only [Stmt.nodeCount, Stmt.nodeCountAll] at hc
    simp only [Stmt.flowEdges, Stmt.flowEdgesAll, List.mem_append] at hx
    rcases hx with hx | hx
    · have := Stmt.enterAll_target rest (b + s.nodeCount) c
      exact ih _ (by omega) x hx h₁ h₂
    · have := Stmt.flowEdgesAll_target rest (b + s.nodeCount) c x hx
      omega
  | @tail s rest b T b' h ih =>
    intro c hc x hx h₁ h₂
    have hr := h.range
    simp only [Stmt.nodeCount, Stmt.nodeCountAll] at hc hr
    simp only [Stmt.flowEdges, Stmt.flowEdgesAll, List.mem_append] at hx
    rcases hx with hx | hx
    · have := Stmt.flowEdges_target s b _ x hx
      have := Stmt.enterAll_target rest (b + s.nodeCount) c
      omega
    · exact ih c (by simp only [Stmt.nodeCount]; omega) x hx h₁ h₂

/-! ## Every node goes on -/

mutual

/-- Every node of a statement has an edge out, or is a return. -/
theorem Stmt.flowEdges_out : ∀ (s : Stmt) (b : Nat) (c : Cont) (v : Nat), b ≤ v →
    v < b + s.nodeCount → (∃ x ∈ s.flowEdges b c, x.1 = v) ∨ v ∈ s.returnNodes b
  | .block items, b, c, v, h₁, h₂ => Stmt.flowEdgesAll_out items b c v h₁ h₂
  | .declare _ _, b, c, v, h₁, h₂ | .assign _ _, b, c, v, h₁, h₂
  | .expr _, b, c, v, h₁, h₂ => by
    simp only [Stmt.nodeCount] at h₂
    exact Or.inl ⟨_, List.mem_singleton_self _, by dsimp only; omega⟩
  | .ret _, b, c, v, h₁, h₂ => by
    simp only [Stmt.nodeCount] at h₂
    exact Or.inr (by simp only [Stmt.returnNodes, List.mem_singleton]; omega)
  | .ifThen _ t, b, c, v, h₁, h₂ => by
    simp only [Stmt.nodeCount] at h₂
    by_cases hv : v = b
    · subst hv
      exact Or.inl ⟨_, List.mem_append_left _ (true_mem_branchEdges _ _ _), rfl⟩
    · rcases Stmt.flowEdges_out t (b + 1) c v (by omega) (by omega) with ⟨x, hx, hxv⟩ | hr
      · exact Or.inl ⟨x, List.mem_append_right _ hx, hxv⟩
      · exact Or.inr hr
  | .ifElse _ t e, b, c, v, h₁, h₂ => by
    simp only [Stmt.nodeCount] at h₂
    by_cases hv : v = b
    · subst hv
      exact Or.inl ⟨_, List.mem_append_left _ (true_mem_branchEdges _ _ _), rfl⟩
    · by_cases hvt : v < b + 1 + t.nodeCount
      · rcases Stmt.flowEdges_out t (b + 1) c v (by omega) hvt with ⟨x, hx, hxv⟩ | hr
        · exact Or.inl ⟨x, by simp [Stmt.flowEdges, hx], hxv⟩
        · exact Or.inr (List.mem_append_left _ hr)
      · rcases Stmt.flowEdges_out e (b + 1 + t.nodeCount) c v (by omega) (by omega) with
          ⟨x, hx, hxv⟩ | hr
        · exact Or.inl ⟨x, by simp [Stmt.flowEdges, hx], hxv⟩
        · exact Or.inr (List.mem_append_right _ hr)
  | .loop _ body, b, c, v, h₁, h₂ => by
    simp only [Stmt.nodeCount] at h₂
    by_cases hv : v = b
    · subst hv
      exact Or.inl ⟨_, List.mem_cons_self, rfl⟩
    · rcases Stmt.flowEdges_out body (b + 1) ⟨b, true⟩ v (by omega) (by omega) with
        ⟨x, hx, hxv⟩ | hr
      · exact Or.inl ⟨x, List.mem_cons_of_mem _ (List.mem_cons_of_mem _ hx), hxv⟩
      · exact Or.inr hr

theorem Stmt.flowEdgesAll_out : ∀ (items : List Stmt) (b : Nat) (c : Cont) (v : Nat), b ≤ v →
    v < b + Stmt.nodeCountAll items →
      (∃ x ∈ Stmt.flowEdgesAll items b c, x.1 = v) ∨ v ∈ Stmt.returnNodesAll items b
  | [], b, _, v, h₁, h₂ => by simp only [Stmt.nodeCountAll] at h₂; omega
  | s :: rest, b, c, v, h₁, h₂ => by
    simp only [Stmt.nodeCountAll] at h₂
    by_cases hv : v < b + s.nodeCount
    · rcases Stmt.flowEdges_out s b (Stmt.enterAll rest (b + s.nodeCount) c) v h₁ hv with
        ⟨x, hx, hxv⟩ | hr
      · exact Or.inl ⟨x, List.mem_append_left _ hx, hxv⟩
      · exact Or.inr (List.mem_append_left _ hr)
    · rcases Stmt.flowEdgesAll_out rest (b + s.nodeCount) c v (by omega) (by omega) with
        ⟨x, hx, hxv⟩ | hr
      · exact Or.inl ⟨x, List.mem_append_right _ hx, hxv⟩
      · exact Or.inr (List.mem_append_right _ hr)

end

/-- Along the edges `L`, `u` leads to `w`. -/
def EdgesReach (L : List (Nat × Nat × EdgeKind)) : Nat → Nat → Prop :=
  Relation.ReflTransGen fun u w => ∃ k, (u, w, k) ∈ L

/-- Along the edges `L`, `v` leads to `t` or to one of the returns `R`. -/
def FlowsOut (L : List (Nat × Nat × EdgeKind)) (R : List Nat) (v t : Nat) : Prop :=
  EdgesReach L v t ∨ ∃ r ∈ R, EdgesReach L v r

theorem EdgesReach.mono {L L' : List (Nat × Nat × EdgeKind)} (hL : L ⊆ L') {u w : Nat}
    (h : EdgesReach L u w) : EdgesReach L' u w := by
  unfold EdgesReach at h ⊢
  induction h with
  | refl => exact Relation.ReflTransGen.refl
  | tail _ hstep ih =>
    obtain ⟨k, hk⟩ := hstep
    exact ih.tail ⟨k, hL hk⟩

namespace FlowsOut

variable {L L' : List (Nat × Nat × EdgeKind)} {R R' : List Nat} {u v t : Nat}

theorem mono (hL : L ⊆ L') (hR : R ⊆ R') (h : FlowsOut L R v t) : FlowsOut L' R' v t := by
  rcases h with h | ⟨r, hr, h⟩
  · exact Or.inl (h.mono hL)
  · exact Or.inr ⟨r, hR hr, h.mono hL⟩

theorem edge {k : EdgeKind} (he : (v, t, k) ∈ L) : FlowsOut L R v t :=
  Or.inl (Relation.ReflTransGen.single ⟨k, he⟩)

theorem ret (hr : v ∈ R) : FlowsOut L R v t := Or.inr ⟨v, hr, Relation.ReflTransGen.refl⟩

theorem head {k : EdgeKind} (he : (u, v, k) ∈ L) (h : FlowsOut L R v t) : FlowsOut L R u t := by
  rcases h with h | ⟨r, hr, h⟩
  · exact Or.inl (Relation.ReflTransGen.head ⟨k, he⟩ h)
  · exact Or.inr ⟨r, hr, Relation.ReflTransGen.head ⟨k, he⟩ h⟩

theorem trans {t' : Nat} (h₁ : FlowsOut L R v t) (h₂ : FlowsOut L R t t') :
    FlowsOut L R v t' := by
  rcases h₁ with h₁ | h₁
  · rcases h₂ with h₂ | h₂
    · exact Or.inl (h₁.trans h₂)
    · obtain ⟨r, hr, h₂⟩ := h₂
      exact Or.inr ⟨r, hr, h₁.trans h₂⟩
  · exact Or.inr h₁

end FlowsOut

mutual

/-- **Every node goes on.** From every node of a statement the edges it draws lead to its
continuation or to one of its returns. -/
theorem Stmt.flowEdges_flowsOut : ∀ (s : Stmt) (b : Nat) (c : Cont) (v : Nat), b ≤ v →
    v < b + s.nodeCount → FlowsOut (s.flowEdges b c) (s.returnNodes b) v c.target
  | .block items, b, c, v, h₁, h₂ => Stmt.flowEdgesAll_flowsOut items b c v h₁ h₂
  | .declare _ _, b, c, v, h₁, h₂ | .assign _ _, b, c, v, h₁, h₂
  | .expr _, b, c, v, h₁, h₂ => by
    simp only [Stmt.nodeCount] at h₂
    obtain rfl : v = b := by omega
    exact FlowsOut.edge (List.mem_singleton_self _)
  | .ret _, b, c, v, h₁, h₂ => by
    simp only [Stmt.nodeCount] at h₂
    obtain rfl : v = b := by omega
    exact FlowsOut.ret (List.mem_singleton_self _)
  | .ifThen cond t, b, c, v, h₁, h₂ => by
    simp only [Stmt.nodeCount] at h₂
    have hsub : t.flowEdges (b + 1) c ⊆ (Stmt.ifThen cond t).flowEdges b c := fun _ hx => by
      simp [Stmt.flowEdges, hx]
    by_cases hv : v = b
    · -- the true edge enters the then branch, or goes straight on
      subst hv
      have htrue : (v, (t.enter (v + 1) c).target, (t.enter (v + 1) c).kind .onTrue) ∈
          (Stmt.ifThen cond t).flowEdges v c :=
        List.mem_append_left _ (true_mem_branchEdges _ _ _)
      rcases t.enter_cases (v + 1) c with ⟨he, hn⟩ | he
      · rw [he] at htrue
        exact .head htrue ((Stmt.flowEdges_flowsOut t (v + 1) c (v + 1) (by omega)
          (by omega)).mono hsub (fun _ h => h))
      · rw [he] at htrue
        exact .edge htrue
    · exact (Stmt.flowEdges_flowsOut t (b + 1) c v (by omega) (by omega)).mono hsub
        (fun _ h => h)
  | .ifElse cond t e, b, c, v, h₁, h₂ => by
    simp only [Stmt.nodeCount] at h₂
    have hsubT : t.flowEdges (b + 1) c ⊆ (Stmt.ifElse cond t e).flowEdges b c := fun _ hx => by
      simp [Stmt.flowEdges, hx]
    have hsubE : e.flowEdges (b + 1 + t.nodeCount) c ⊆ (Stmt.ifElse cond t e).flowEdges b c :=
      fun _ hx => by simp [Stmt.flowEdges, hx]
    by_cases hv : v = b
    · subst hv
      have htrue : (v, (t.enter (v + 1) c).target, (t.enter (v + 1) c).kind .onTrue) ∈
          (Stmt.ifElse cond t e).flowEdges v c :=
        List.mem_append_left _ (true_mem_branchEdges _ _ _)
      rcases t.enter_cases (v + 1) c with ⟨he, hn⟩ | he
      · rw [he] at htrue
        exact .head htrue ((Stmt.flowEdges_flowsOut t (v + 1) c (v + 1) (by omega)
          (by omega)).mono hsubT (List.subset_append_left _ _))
      · rw [he] at htrue
        exact .edge htrue
    · by_cases hvt : v < b + 1 + t.nodeCount
      · exact (Stmt.flowEdges_flowsOut t (b + 1) c v (by omega) hvt).mono hsubT
          (List.subset_append_left _ _)
      · exact (Stmt.flowEdges_flowsOut e (b + 1 + t.nodeCount) c v (by omega)
          (by omega)).mono hsubE (List.subset_append_right _ _)
  | .loop cond body, b, c, v, h₁, h₂ => by
    simp only [Stmt.nodeCount] at h₂
    -- the false edge leaves the loop from its head
    have hfalse : (b, c.target, c.kind .onFalse) ∈ (Stmt.loop cond body).flowEdges b c :=
      List.mem_cons_of_mem _ List.mem_cons_self
    by_cases hv : v = b
    · subst hv
      exact .edge hfalse
    · -- the body leads back to the head, or to a return
      have hsub : body.flowEdges (b + 1) ⟨b, true⟩ ⊆ (Stmt.loop cond body).flowEdges b c :=
        fun _ hx => List.mem_cons_of_mem _ (List.mem_cons_of_mem _ hx)
      exact ((Stmt.flowEdges_flowsOut body (b + 1) ⟨b, true⟩ v (by omega) (by omega)).mono hsub
        (fun _ h => h)).trans (.edge hfalse)

theorem Stmt.flowEdgesAll_flowsOut : ∀ (items : List Stmt) (b : Nat) (c : Cont) (v : Nat),
    b ≤ v → v < b + Stmt.nodeCountAll items →
      FlowsOut (Stmt.flowEdgesAll items b c) (Stmt.returnNodesAll items b) v c.target
  | [], b, _, v, h₁, h₂ => by simp only [Stmt.nodeCountAll] at h₂; omega
  | s :: rest, b, c, v, h₁, h₂ => by
    simp only [Stmt.nodeCountAll] at h₂
    have hrest : ∀ w, b + s.nodeCount ≤ w → w < b + s.nodeCount + Stmt.nodeCountAll rest →
        FlowsOut (Stmt.flowEdgesAll (s :: rest) b c) (Stmt.returnNodesAll (s :: rest) b) w
          c.target := fun w hw₁ hw₂ =>
      (Stmt.flowEdgesAll_flowsOut rest (b + s.nodeCount) c w hw₁ hw₂).mono
        (List.subset_append_right _ _) (List.subset_append_right _ _)
    by_cases hv : v < b + s.nodeCount
    · -- the first item leads to where the rest is entered, and the rest leads on
      have hfirst : FlowsOut (Stmt.flowEdgesAll (s :: rest) b c)
          (Stmt.returnNodesAll (s :: rest) b) v (Stmt.enterAll rest (b + s.nodeCount) c).target :=
        (Stmt.flowEdges_flowsOut s b _ v h₁ hv).mono (List.subset_append_left _ _)
          (List.subset_append_left _ _)
      rcases Stmt.enterAll_target rest (b + s.nodeCount) c with ⟨he, hn⟩ | he
      · rw [he] at hfirst
        exact hfirst.trans (hrest _ (Nat.le_refl _) (by omega))
      · rwa [he] at hfirst
    · exact hrest v (by omega) (by omega)

end

end ReachingDefs
