import Mathlib.Tactic.SplitIfs
import ReachingDefs.Cfg.Dot

/-!
# The quoted strings of a drawing

`Dot.escape` writes text for the inside of a double-quoted DOT string. Read left to right, what
it writes is a well-formed body (`Dot.QuotedBody`): each backslash opens a two-character escape,
no double quote, line feed or carriage return stands anywhere else, and no line break is
escaped. Reading it back gives the text without its carriage returns (`Dot.unescape_escape`), so
two texts without carriage returns are never escaped alike.

A well-formed body ends exactly at the double quote written after it (`Dot.readBody_append`).
So a reader that collects the quoted strings of DOT text (`Dot.strings`) finds in the drawing of
a control-flow graph exactly the strings the drawing means to write: the title, the font name,
one label per node and one per edge that is not a fall-through. Whatever a statement's text, its
label never closes its string early.

## Main definitions

* `Dot.QuotedBody`: a well-formed body of a double-quoted string
* `Dot.readBody`: reads a body up to its closing quote
* `Dot.strings`: the bodies of the quoted strings of DOT text
* `ControlFlowGraph.dotStrings`: the strings a drawing means to write

## Main results

* `Dot.quotedBody_escape`: escaped text is a well-formed body
* `Dot.readBody_append`: a well-formed body is read up to the quote after it, and no further
* `ControlFlowGraph.strings_toDot`: the quoted strings of a drawing are the ones it means to write
* `Dot.escape_wellFormed`: all of this together
-/

namespace ReachingDefs

namespace Dot

/-! ## Well-formed bodies -/

/-- A well-formed body of a double-quoted DOT string, read left to right: a backslash and the
character after it are one escape, no double quote, line feed or carriage return stands outside
an escape, and no line break is escaped. -/
inductive QuotedBody : List Char → Prop
  | nil : QuotedBody []
  | escaped {c : Char} {rest : List Char} : c ≠ '\n' → c ≠ '\r' → QuotedBody rest →
      QuotedBody ('\\' :: c :: rest)
  | plain {c : Char} {rest : List Char} : c ≠ '\\' → c ≠ '"' → c ≠ '\n' → c ≠ '\r' →
      QuotedBody rest → QuotedBody (c :: rest)

theorem QuotedBody.append {s t : List Char} (hs : QuotedBody s) (ht : QuotedBody t) :
    QuotedBody (s ++ t) := by
  induction hs with
  | nil => exact ht
  | escaped hn hr _ ih => exact .escaped hn hr ih
  | plain hb hq hn hr _ ih => exact .plain hb hq hn hr ih

/-- Text none of whose characters needs escaping is a well-formed body as it stands. -/
theorem QuotedBody.of_plain {t : List Char}
    (h : ∀ c ∈ t, c ≠ '\\' ∧ c ≠ '"' ∧ c ≠ '\n' ∧ c ≠ '\r') : QuotedBody t := by
  induction t with
  | nil => exact .nil
  | cons c rest ih =>
    obtain ⟨hb, hq, hn, hr⟩ := h c List.mem_cons_self
    exact .plain hb hq hn hr (ih fun x hx => h x (List.mem_cons_of_mem c hx))

/-- What one character of text is written as is a well-formed body. -/
theorem quotedBody_escapeChar (c : Char) : QuotedBody (escapeChar c) := by
  unfold escapeChar
  split
  -- a backslash, a quote, an angle bracket or a line feed: an escape of a printing character
  case h_1 | h_2 | h_3 | h_4 | h_5 => exact .escaped (by decide) (by decide) .nil
  -- a carriage return is dropped
  case h_6 => exact .nil
  case h_7 hb hq _ _ hn hr => exact .plain hb hq hn hr .nil

theorem quotedBody_flatMap_escapeChar (cs : List Char) :
    QuotedBody (cs.flatMap escapeChar) := by
  induction cs with
  | nil => exact .nil
  | cons c rest ih => exact (quotedBody_escapeChar c).append ih

/-- **Escaped text is a well-formed body.** -/
theorem quotedBody_escape (s : String) : QuotedBody (escape s).toList := by
  rw [escape_toList]
  exact quotedBody_flatMap_escapeChar s.toList

/-- Escaped text reads back to the text less its carriage returns. -/
theorem unescape_escape_toList (s : String) :
    unescape (escape s).toList = s.toList.filter (· != '\r') := by
  rw [escape_toList]
  exact unescape_escape s.toList

/-- Text without carriage returns reads back whole, so no two such texts are escaped alike. -/
theorem escape_injective {s t : String} (hs : '\r' ∉ s.toList) (ht : '\r' ∉ t.toList)
    (h : escape s = escape t) : s = t := by
  have hwhole : ∀ u : String, '\r' ∉ u.toList → u.toList.filter (· != '\r') = u.toList :=
    fun u hu => List.filter_eq_self.mpr fun c hc => by
      simpa using fun hcr : c = '\r' => hu (hcr ▸ hc)
  apply String.toList_inj.mp
  calc s.toList = unescape (escape s).toList := by rw [unescape_escape_toList, hwhole s hs]
    _ = unescape (escape t).toList := by rw [h]
    _ = t.toList := by rw [unescape_escape_toList, hwhole t ht]

/-! ## Reading quoted strings -/

/-- Reads the body of a quoted string, from just after its opening quote, and gives the body
with what follows its closing quote. A backslash is read together with the character after it,
so an escaped quote does not close the string. None if the text ends first. -/
def readBody : List Char → Option (List Char × List Char)
  | [] => none
  | '"' :: rest => some ([], rest)
  | '\\' :: c :: rest => (readBody rest).map fun r => ('\\' :: c :: r.1, r.2)
  | c :: rest => (readBody rest).map fun r => (c :: r.1, r.2)

theorem readBody_length {l body after : List Char} (h : readBody l = some (body, after)) :
    after.length < l.length := by
  induction l using readBody.induct generalizing body after with
  | case1 => simp [readBody] at h
  | case2 rest =>
    simp only [readBody, Option.some.injEq, Prod.mk.injEq] at h
    simp [h.2]
  | case3 c rest ih =>
    simp only [readBody, Option.map_eq_some_iff, Prod.exists] at h
    obtain ⟨b, a, hread, -, rfl⟩ := h
    have := ih hread
    simp only [List.length_cons]
    omega
  | case4 c rest _ _ ih =>
    rw [readBody.eq_4 c rest (by assumption) (by assumption)] at h
    simp only [Option.map_eq_some_iff, Prod.exists] at h
    obtain ⟨b, a, hread, -, rfl⟩ := h
    have := ih hread
    simp only [List.length_cons]
    omega

theorem readBody_cons_of_ne {c : Char} (hq : c ≠ '"') (hb : c ≠ '\\') (rest : List Char) :
    readBody (c :: rest) = (readBody rest).map fun r => (c :: r.1, r.2) := by
  conv => lhs; unfold readBody
  split <;> simp_all

/-- **A well-formed body is read up to the quote written after it**: the string closes there,
and not before. -/
theorem readBody_append {body : List Char} (h : QuotedBody body) (rest : List Char) :
    readBody (body ++ '"' :: rest) = some (body, rest) := by
  induction h with
  | nil => simp [readBody]
  | escaped _ _ _ ih => simp [readBody, ih]
  | plain hb hq _ _ _ ih =>
    rw [List.cons_append, readBody_cons_of_ne hq hb, ih]
    rfl

set_option linter.unusedVariables false in
/-- The bodies of the quoted strings of DOT text, in order. Outside a string every character but
a double quote is passed over; a double quote opens a string, read by `readBody`. None if a
string is left open. -/
def strings (l : List Char) : Option (List (List Char)) :=
  match l with
  | [] => some []
  | '"' :: rest =>
    match hread : readBody rest with
    | none => none
    | some (body, after) => (strings after).map (body :: ·)
  | _ :: rest => strings rest
termination_by l.length
decreasing_by
  · have := readBody_length hread
    simp only [List.length_cons]
    omega
  · simp

theorem strings_cons_of_ne {c : Char} (hc : c ≠ '"') (rest : List Char) :
    strings (c :: rest) = strings rest := by
  rw [strings]
  exact hc

theorem strings_quote {rest body after : List Char} (h : readBody rest = some (body, after)) :
    strings ('"' :: rest) = (strings after).map (body :: ·) := by
  rw [strings]
  split
  · simp_all
  · simp_all

/-- Text without a double quote holds no string, and what follows it is read on its own. -/
theorem strings_plain_append {t : List Char} (h : '"' ∉ t) (rest : List Char) :
    strings (t ++ rest) = strings rest := by
  induction t with
  | nil => rfl
  | cons c t ih =>
    rw [List.cons_append, strings_cons_of_ne (fun hc => h (hc ▸ List.mem_cons_self)),
      ih (fun ht => h (List.mem_cons_of_mem c ht))]

theorem strings_of_plain {t : List Char} (h : '"' ∉ t) : strings t = some [] := by
  simpa [strings] using strings_plain_append h []

/-- A well-formed body between quotes is one string, and what follows it is read on its own. -/
theorem strings_quoted_append {body : String} (h : QuotedBody body.toList) (rest : List Char) :
    strings ((quoted body).toList ++ rest) = (strings rest).map (body.toList :: ·) := by
  have hsplit : (quoted body).toList ++ rest = '"' :: (body.toList ++ '"' :: rest) := by
    simp [quoted]
  rw [hsplit, strings_quote (readBody_append h rest)]

/-- Lines each of which holds its own strings, and ends outside one, hold their strings in
order. -/
theorem strings_flatMap_append {α : Type} {l : List α} {f : α → List Char}
    {g : α → List (List Char)}
    (h : ∀ x ∈ l, ∀ rest, strings (f x ++ rest) = (strings rest).map (g x ++ ·))
    (rest : List Char) :
    strings (l.flatMap f ++ rest) = (strings rest).map (l.flatMap g ++ ·) := by
  induction l with
  | nil => simp
  | cons x xs ih =>
    rw [List.flatMap_cons, List.append_assoc,
      h x List.mem_cons_self, ih (fun y hy => h y (List.mem_cons_of_mem x hy)),
      Option.map_map, List.flatMap_cons]
    simp [Function.comp_def]

end Dot

/-! ## The strings of a drawing -/

namespace ControlFlowGraph

open Dot

theorem quote_not_mem_nodeName (v : Nat) : '"' ∉ (nodeName v).toList := by
  intro h
  simp only [nodeName, String.toList_append, List.mem_append] at h
  rcases h with h | h
  · simp at h
  · have hd := @Nat.isDigit_of_mem_toDigits 10 v '"' (by decide) (by decide)
      (by simpa [Nat.toString_eq_repr, Nat.repr] using h)
    simp at hd

theorem quotedBody_nodeName (v : Nat) : QuotedBody (nodeName v).toList := by
  refine QuotedBody.of_plain fun c hc => ?_
  simp only [nodeName, String.toList_append, List.mem_append] at hc
  rcases hc with hc | hc
  · obtain rfl : c = 'n' := by simpa using hc
    decide
  · have hd := @Nat.isDigit_of_mem_toDigits 10 v c (by decide) (by decide)
      (by simpa [Nat.toString_eq_repr, Nat.repr] using hc)
    refine ⟨?_, ?_, ?_, ?_⟩ <;> rintro rfl <;> simp at hd

/-- A node's label is a well-formed body: its handle, a colon, and its escaped text. -/
theorem quotedBody_nodeLabel (v : Nat) (n : CfgNode) :
    QuotedBody (nodeName v ++ ": " ++ escape n.text).toList := by
  simp only [String.toList_append]
  exact ((quotedBody_nodeName v).append (QuotedBody.of_plain (by simp))).append
    (quotedBody_escape n.text)

theorem quote_not_mem_dotNodeStyle (cfg : ControlFlowGraph) (live : Bool) (v : Nat) :
    '"' ∉ (cfg.dotNodeStyle live v).toList := by
  unfold dotNodeStyle
  split_ifs <;> decide

theorem quote_not_mem_dotStyle (k : EdgeKind) : '"' ∉ k.dotStyle.toList := by
  cases k <;> decide

theorem strings_dotHeader_append (title : String) (rest : List Char) :
    strings ((dotHeader title).toList ++ rest) =
      (strings rest).map ([(escape title).toList, "Courier".toList] ++ ·) := by
  unfold dotHeader
  simp only [String.toList_append, List.append_assoc]
  -- plain text, the escaped title quoted, plain text, the font name quoted, plain text
  rw [strings_plain_append (by decide), strings_quoted_append (quotedBody_escape title),
    strings_plain_append (by decide), strings_quoted_append (QuotedBody.of_plain (by simp)),
    strings_plain_append (by decide), Option.map_map]
  rfl

/-- The line of a node holds one string, its label. -/
theorem strings_dotNode_append (cfg : ControlFlowGraph) (live : Bool) (v : Nat) (n : CfgNode)
    (rest : List Char) :
    strings ((cfg.dotNode live v n).toList ++ rest) =
      (strings rest).map ([(nodeName v ++ ": " ++ escape n.text).toList] ++ ·) := by
  unfold dotNode
  conv => lhs; simp only [String.toList_append, List.append_assoc]
  -- plain text, the handle, plain text, the label quoted, the style, plain text
  rw [strings_plain_append (by decide), strings_plain_append (quote_not_mem_nodeName v),
    strings_plain_append (by decide), strings_quoted_append (quotedBody_nodeLabel v n),
    strings_plain_append (quote_not_mem_dotNodeStyle cfg live v), strings_plain_append (by decide)]
  rfl

/-- The line of an edge holds the edge's kind as its one string, unless it is a fall-through. -/
theorem strings_dotEdge_append (source target : Nat) (k : EdgeKind) (rest : List Char) :
    strings ((dotEdge source target k).toList ++ rest) =
      (strings rest).map ((if k = .seq then [] else [k.label]).map String.toList ++ ·) := by
  cases k with
  | seq =>
    simp only [dotEdge, String.toList_append, List.append_assoc]
    rw [strings_plain_append (by decide), strings_plain_append (quote_not_mem_nodeName source),
      strings_plain_append (by decide), strings_plain_append (quote_not_mem_nodeName target),
      strings_plain_append (by decide)]
    simp
  | onTrue | onFalse | loopBack | toExit =>
    simp only [dotEdge, String.toList_append, List.append_assoc]
    rw [strings_plain_append (by decide), strings_plain_append (quote_not_mem_nodeName source),
      strings_plain_append (by decide), strings_plain_append (quote_not_mem_nodeName target),
      strings_plain_append (by decide),
      strings_quoted_append (QuotedBody.of_plain (by simp [EdgeKind.label])),
      strings_plain_append (quote_not_mem_dotStyle _), strings_plain_append (by decide)]
    simp

/-- The quoted strings a drawing means to write, in order: the title, the font name, the label
of each node, and the kind of each edge that is not a fall-through. -/
def dotStrings (cfg : ControlFlowGraph) (title : Option String) : List String :=
  [escape (title.getD cfg.name), "Courier"] ++
    (cfg.graph.nodes.toList.zipIdx.flatMap fun (n, v) => [nodeName v ++ ": " ++ escape n.text]) ++
    cfg.graph.nodeIds.flatMap fun v =>
      (cfg.outgoing v).flatMap fun (_, k) => if k = .seq then [] else [k.label]

/-- **A drawing holds exactly the strings it means to write.** Read as DOT text, with a
backslash escaping the character after it, the drawing of a control-flow graph opens and closes
its quoted strings where it writes them: no label, whatever the text of its statement, ends
its string early. -/
theorem strings_toDot (cfg : ControlFlowGraph) (title : Option String) :
    strings (cfg.toDot title).toList = some ((cfg.dotStrings title).map String.toList) := by
  unfold toDot
  simp only [String.toList_append, String.toList_join, List.append_assoc]
  -- the header, the node lines, a blank line, the edge lines of each node in turn, the end
  rw [strings_dotHeader_append, List.flatMap_map,
    strings_flatMap_append fun (x : CfgNode × Nat) _ rest =>
      strings_dotNode_append cfg (cfg.reachableSet.mem x.2) x.2 x.1 rest,
    strings_plain_append (by decide), List.flatMap_assoc,
    strings_flatMap_append fun (v : Nat) _ rest => by
      rw [List.flatMap_map]
      exact strings_flatMap_append (fun (e : Nat × EdgeKind) _ rest =>
        strings_dotEdge_append v e.1 e.2 rest) rest,
    strings_of_plain (by decide)]
  simp only [Option.map_some, dotStrings, List.map_append, List.map_flatMap, List.map_cons,
    List.map_nil, List.append_nil, List.append_assoc]

end ControlFlowGraph

namespace Dot

/-- **Escaping writes well-formed bodies that read back to the text.** Escaped text is a
well-formed body of a double-quoted DOT string: read left to right, every backslash opens a
two-character escape, and no double quote, line feed or carriage return stands unescaped. It
reads back to the text without its carriage returns, so two texts without carriage returns are
escaped alike only if they are equal. And in the drawing of any control-flow graph the quoted
strings are exactly those it means to write: no label ends its string early. -/
theorem escape_wellFormed :
    (∀ s : String, QuotedBody (escape s).toList ∧
      unescape (escape s).toList = s.toList.filter (· != '\r')) ∧
    (∀ s t : String, '\r' ∉ s.toList → '\r' ∉ t.toList → escape s = escape t → s = t) ∧
    ∀ (cfg : ControlFlowGraph) (title : Option String),
      strings (cfg.toDot title).toList = some ((cfg.dotStrings title).map String.toList) :=
  ⟨fun s => ⟨quotedBody_escape s, unescape_escape_toList s⟩,
    fun _ _ hs ht h => escape_injective hs ht h, ControlFlowGraph.strings_toDot⟩

end Dot

end ReachingDefs
