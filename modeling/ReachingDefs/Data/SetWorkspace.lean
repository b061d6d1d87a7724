import ReachingDefs.Data.BitSet

/-!
# A workspace of named bit sets

Steps create, copy, change and inspect bit sets that are known by name. Each step acts on one
target set and answers with a reply and the target as it stands afterwards. A step may first
make its target anew, may name a second set to combine with, and then runs one command. A
creation that faults creates nothing; a creation that succeeds stays even when the rest of
its step is refused; a command that faults leaves its target as it was.
-/

namespace ReachingDefs

/-- How a step makes its target anew before it acts on it. -/
inductive SetCreation where
  | create (len : Nat)
  | fromIndices (len : Nat) (indices : List Nat)
  | copy (source : String)
deriving Repr

/-- What a step does with its target once the target exists. -/
inductive SetCommand where
  /-- Leaves the target as it is, after a creation. -/
  | keep
  | insert (index : Nat)
  | remove (index : Nat)
  | contains (index : Nat)
  /-- Adds the members of the step's other set. -/
  | unionWith
  /-- Removes the members of the step's other set. -/
  | differenceWith
  /-- Compares the target with the step's other set. -/
  | equals
  | count
  | len
  | isEmpty
  | debug
deriving Repr

/-- One step of a session. A part that the request got wrong is kept as the reason it is
refused, and the step reaches its parts in order: the creation, the other set, the target,
the command. -/
structure SetStep where
  target : String
  creation : Option (Except String SetCreation) := none
  /-- The set that a combining command works with. -/
  other : Option String := none
  command : Except String SetCommand

/-- What a command answers besides the target set. -/
inductive SetReply where
  | nothing
  | flag (b : Bool)
  | number (n : Nat)
  | text (s : String)
deriving DecidableEq, Repr

/-- Why a workspace step was refused. -/
inductive SetStepError where
  /-- A part of the step was malformed, for the given reason. -/
  | malformed (reason : String)
  /-- The bit set operation itself refused. -/
  | fault (f : BitSetFault)
  /-- The target or source set does not exist. -/
  | unknownSet
  /-- The other set named by the step does not exist. -/
  | unknownOther
  /-- A combining command names no other set. -/
  | missingOther
deriving DecidableEq, Repr

/-- The report of a refused step that the bit sets did not refuse themselves. -/
def SetStepError.message : SetStepError → String
  | .malformed reason => reason
  | .fault f => f.message
  | .unknownSet => "unknown set"
  | .unknownOther => "unknown other set"
  | .missingOther => "missing 'other'"

/-- Bit sets by name; a later binding of a name replaces the earlier one. -/
structure SetWorkspace where
  sets : List (String × BitSet) := []

namespace SetWorkspace

/-- The set bound to a name. -/
def get? (ws : SetWorkspace) (name : String) : Option BitSet :=
  (ws.sets.find? (·.1 == name)).map (·.2)

/-- Binds a name to a set. -/
def put (ws : SetWorkspace) (name : String) (s : BitSet) : SetWorkspace :=
  ⟨(name, s) :: ws.sets.filter (·.1 != name)⟩

/-- The set that a creation makes. -/
def made (ws : SetWorkspace) : SetCreation → Except SetStepError BitSet
  | .create len => .ok (BitSet.new len)
  | .fromIndices len indices =>
    match BitSet.fromIndices len indices with
    | .ok s => .ok s
    | .error f => .error (.fault f)
  | .copy source =>
    match ws.get? source with
    | some s => .ok s
    | none => .error .unknownSet

/-- The workspace once the step's creation, if any, has bound its target. -/
def create (ws : SetWorkspace) (st : SetStep) : Except SetStepError SetWorkspace :=
  match st.creation with
  | none => .ok ws
  | some (.error reason) => .error (.malformed reason)
  | some (.ok c) =>
    match ws.made c with
    | .ok s => .ok (ws.put st.target s)
    | .error e => .error e

/-- The reply and new target of a step whose creation is done, or why it is refused. -/
def act (ws : SetWorkspace) (st : SetStep) : Except SetStepError (SetReply × BitSet) :=
  let other : Except SetStepError (Option BitSet) :=
    match st.other with
    | none => .ok none
    | some name =>
      match ws.get? name with
      | some t => .ok (some t)
      | none => .error .unknownOther
  match other, ws.get? st.target, st.command with
  | .error e, _, _ => .error e
  | .ok _, none, _ => .error .unknownSet
  | .ok _, some _, .error reason => .error (.malformed reason)
  | .ok other, some s, .ok cmd =>
    let changed (r : Except BitSetFault (BitSet × Bool)) :
        Except SetStepError (SetReply × BitSet) :=
      match r with
      | .ok (t, b) => .ok (.flag b, t)
      | .error f => .error (.fault f)
    let withOther (f : BitSet → Except SetStepError (SetReply × BitSet)) :=
      match other with
      | some t => f t
      | none => .error .missingOther
    match cmd with
    | .keep => .ok (.nothing, s)
    | .insert i => changed (s.insert i)
    | .remove i => changed (s.remove i)
    | .contains i => .ok (.flag (s.contains i), s)
    | .unionWith => withOther fun t => changed (s.unionWith t)
    | .differenceWith => withOther fun t => changed (s.differenceWith t)
    | .equals => withOther fun t => .ok (.flag (decide (s = t)), s)
    | .count => .ok (.number s.count, s)
    | .len => .ok (.number s.len, s)
    | .isEmpty => .ok (.flag s.isEmpty, s)
    | .debug => .ok (.text s.debugText, s)

/-- Runs one step. A creation that succeeds stays even when the rest of the step is refused;
a command that succeeds binds the target to its new set. -/
def step (ws : SetWorkspace) (st : SetStep) :
    Except SetStepError (SetReply × BitSet) × SetWorkspace :=
  match ws.create st with
  | .error e => (.error e, ws)
  | .ok ws' =>
    match ws'.act st with
    | .ok (r, s) => (.ok (r, s), ws'.put st.target s)
    | .error e => (.error e, ws')

/-- Runs steps in order, from an empty workspace, and lists their answers. -/
def run (steps : List SetStep) : List (Except SetStepError (SetReply × BitSet)) :=
  (steps.foldl (fun (acc : Array (Except SetStepError (SetReply × BitSet)) × SetWorkspace) st =>
    let (out, ws) := acc.2.step st
    (acc.1.push out, ws)) (#[], {})).1.toList

end SetWorkspace

end ReachingDefs
