/-!
# Lexical scopes

Scopes form a tree of frames. The root frame holds the parameters; lowering opens a child frame
for the body, for every block and for every branch or loop body, below the position it starts
at. A frame only grows while it is the innermost open scope, so a position inside it is fully
described by the frame and the number of bindings it held at that moment (`ScopePoint`). Every
node keeps the position it was lowered at, which is what lets a read of a name be resolved after
the graph is built: the innermost binding of the name visible there, searching the position's
frame latest first and then the frames above it, else the procedure's free variable of that
name.
-/

namespace ReachingDefs

/-- Bindings of names to variables, innermost and latest first, so that the first binding of a
name is the one a read of that name sees. -/
abbrev Bindings := List (String × Nat)

/-- The variable of the first binding of a name. -/
def Bindings.lookup (b : Bindings) (name : String) : Option Nat :=
  (b.find? (·.1 == name)).map (·.2)

/-- A position in the scope tree: a frame and how many of its bindings are visible. -/
structure ScopePoint where
  frame : Nat
  len : Nat
deriving DecidableEq, Repr, Inhabited

/-- A frame of the scope tree: the position it was opened at, none for the root, and the
bindings made in it, oldest first. -/
structure Frame where
  parent : Option ScopePoint := none
  bindings : Array (String × Nat) := #[]
deriving Repr, Inhabited

/-- The scope tree of one procedure, its free variables, and the position of every node. -/
structure Scopes where
  /-- The frames, the root first; a frame is opened after the one it lies in. -/
  frames : Array Frame := #[{}]
  /-- The free variable of each name the body assigns with no declaration visible. -/
  free : Bindings := []
  /-- The position of each node, indexed by node. -/
  atNode : Array ScopePoint := #[]
deriving Inhabited

namespace Scopes

/-- The tree with its root frame alone, and the position at the start of it. -/
def new : Scopes × ScopePoint := ({}, ⟨0, 0⟩)

/-- Opens a child frame below `parent`, and returns the position at its start. -/
def openFrame (s : Scopes) (parent : ScopePoint) : Scopes × ScopePoint :=
  ({ s with frames := s.frames.push { parent := some parent } }, ⟨s.frames.size, 0⟩)

/-- Binds `name` in the frame of `point` and moves `point` past the new binding. `point` must be
the innermost open position; a position outside the tree is left as it is. -/
def declare (s : Scopes) (point : ScopePoint) (name : String) (id : Nat) : Scopes × ScopePoint :=
  match s.frames[point.frame]? with
  | none => (s, point)
  | some f =>
    ({ s with frames := s.frames.modify point.frame fun f => { f with
        bindings := f.bindings.push (name, id) } },
      { point with len := f.bindings.size + 1 })

/-- The innermost binding of `name` visible at `point`; free variables are not considered.
Within a frame only the first `len` bindings are visible, latest first. The walk then goes to
the position the frame was opened at. Every frame is opened below an older one, so the walk
goes to ever older frames and stops; a parent that is not older, which no tree built by
`openFrame` from the innermost position has, ends it. -/
def lookup (s : Scopes) (point : ScopePoint) (name : String) : Option Nat :=
  match s.frames[point.frame]? with
  | none => none
  | some f =>
    match Bindings.lookup (f.bindings.toList.take point.len).reverse name with
    | some id => some id
    | none =>
      match f.parent with
      | none => none
      | some p => if p.frame < point.frame then s.lookup p name else none
termination_by point.frame

/-- The procedure's free variable of a name. -/
def freeVar? (s : Scopes) (name : String) : Option Nat := s.free.lookup name

/-- Makes `id` the free variable of `name`. -/
def insertFree (s : Scopes) (name : String) (id : Nat) : Scopes :=
  { s with free := (name, id) :: s.free }

/-- Records the position of the next node. -/
def record (s : Scopes) (point : ScopePoint) : Scopes := { s with atNode := s.atNode.push point }

/-- The variable a read of `name` at `node` refers to: the innermost declaration visible there,
else the procedure's free variable of that name. Nothing for a node outside the procedure. -/
def resolve (s : Scopes) (node : Nat) (name : String) : Option Nat :=
  match s.atNode[node]? with
  | none => none
  | some point => (s.lookup point name).or (s.freeVar? name)

end Scopes

@[simp] theorem Bindings.lookup_nil (name : String) : Bindings.lookup [] name = none := rfl

theorem Bindings.lookup_cons (x : String) (v : Nat) (b : Bindings) (name : String) :
    Bindings.lookup ((x, v) :: b) name = if x = name then some v else b.lookup name := by
  simp only [Bindings.lookup, List.find?_cons]
  by_cases h : x = name
  · subst h
    simp
  · rw [beq_false_of_ne h, if_neg h]

end ReachingDefs
