/-!
# Text inside a quoted DOT string

A label in a DOT file is written between double quotes. `Dot.escape` makes any text safe
there: a backslash, a double quote and the two angle brackets get a backslash in front, a
line feed becomes the two characters backslash and `n`, and a carriage return is dropped.
Reading the result back (a backslash followed by `c` gives `c`, backslash `n` gives a line
feed) gives the text without its carriage returns.

## Main results

* `unescape_escape`: reading back escaped text gives the text less its carriage returns
-/

namespace ReachingDefs

namespace Dot

/-- The characters that stand for one character of text inside a quoted DOT string. -/
def escapeChar : Char → List Char
  | '\\' => ['\\', '\\']
  | '"' => ['\\', '"']
  | '<' => ['\\', '<']
  | '>' => ['\\', '>']
  | '\n' => ['\\', 'n']
  | '\r' => []
  | c => [c]

/-- Text made safe for a double-quoted DOT string. -/
def escape (s : String) : String :=
  String.ofList (s.toList.flatMap escapeChar)

@[simp] theorem escape_toList (s : String) :
    (escape s).toList = s.toList.flatMap escapeChar := by
  simp [escape]

/-- Text between double quotes, for a body that is escaped already. -/
def quoted (body : String) : String := "\"" ++ body ++ "\""

/-- Every character but the six that need escaping stands for itself. -/
theorem escapeChar_of_plain {c : Char} (h1 : c ≠ '\\') (h2 : c ≠ '"') (h3 : c ≠ '<')
    (h4 : c ≠ '>') (h5 : c ≠ '\n') (h6 : c ≠ '\r') : escapeChar c = [c] := by
  unfold escapeChar
  split <;> simp_all

/-- Reads the body of a quoted DOT string back: a backslash followed by `n` gives a line feed,
and a backslash followed by any other character gives that character. -/
def unescape : List Char → List Char
  | '\\' :: 'n' :: rest => '\n' :: unescape rest
  | '\\' :: c :: rest => c :: unescape rest
  | c :: rest => c :: unescape rest
  | [] => []

theorem unescape_cons_of_ne {c : Char} (h : c ≠ '\\') (rest : List Char) :
    unescape (c :: rest) = c :: unescape rest := by
  conv => lhs; unfold unescape
  split <;> simp_all

/-- Reading back escaped text gives the text without its carriage returns. -/
theorem unescape_escape (cs : List Char) :
    unescape (cs.flatMap escapeChar) = cs.filter (· != '\r') := by
  induction cs with
  | nil => rfl
  | cons c rest ih =>
    simp only [List.flatMap_cons]
    by_cases h1 : c = '\\'
    · subst h1; simp [escapeChar, unescape, ih]
    by_cases h2 : c = '"'
    · subst h2; simp [escapeChar, unescape, ih]
    by_cases h3 : c = '<'
    · subst h3; simp [escapeChar, unescape, ih]
    by_cases h4 : c = '>'
    · subst h4; simp [escapeChar, unescape, ih]
    by_cases h5 : c = '\n'
    · subst h5; simp [escapeChar, unescape, ih]
    by_cases h6 : c = '\r'
    · subst h6; simp [escapeChar, ih]
    rw [escapeChar_of_plain h1 h2 h3 h4 h5 h6, List.singleton_append, unescape_cons_of_ne h1, ih, List.filter_cons]
    simp [h6]

end Dot

end ReachingDefs
