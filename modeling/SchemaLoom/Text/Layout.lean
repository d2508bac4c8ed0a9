/-
Laying out generated text.

Printers put optional pieces between delimiters, separate the pieces that are present and indent
what is nested (`enclose`, `joinPresent`, `indented`).  A piece that is the empty text counts as
absent.

`distinct` keeps each member of a list where it first occurs.  Wherever something is generated
once for several reasons, its order comes from there.
-/
namespace SchemaLoom.Text

/-- The pieces that are not empty, with a separator between them. -/
def joinPresent (separator : String) (pieces : List String) : String :=
  separator.intercalate (pieces.filter (· ≠ ""))

/-- A piece between delimiters, nothing if the piece is absent. -/
def enclose (opening piece closing : String) : String :=
  if piece = "" then "" else opening ++ piece ++ closing

/-- A text with every line break followed by two spaces. -/
def indentBreaks (s : String) : String :=
  String.ofList (s.toList.flatMap fun c => if c = '\n' then ['\n', ' ', ' '] else [c])

/-- A text moved two columns to the right. -/
def indented (s : String) : String := enclose "  " (indentBreaks s) ""

/-- The text `s` spans several lines. -/
def hasBreak (s : String) : Bool := s.toList.contains '\n'

/-- Items on lines of their own, one level deeper, between delimiters. -/
def enclosedLines (opening closing : String) (items : List String) : String :=
  enclose (opening ++ "\n") (indented (joinPresent "\n" items)) ("\n" ++ closing)

/-- Items in braces, each on a line of its own; nothing without items. -/
def braced (items : List String) : String := enclosedLines "\x7b" "\x7d" items

/-- Lines joined by line breaks. -/
def unlines (lines : List String) : String := "\n".intercalate lines

/-- The parts of a character sequence between separators. -/
def splitChars (separator : Char) : List Char → List (List Char)
  | [] => [[]]
  | c :: cs =>
    if c = separator then [] :: splitChars separator cs
    else
      match splitChars separator cs with
      | [] => [[c]]
      | part :: parts => (c :: part) :: parts

/-- The parts of a text between separators; a text without the separator is its only part. -/
def splitAtChar (separator : Char) (s : String) : List String :=
  (splitChars separator s.toList).map String.ofList

theorem splitChars_ne_nil (separator : Char) (cs : List Char) : splitChars separator cs ≠ [] := by
  cases cs with
  | nil => simp [splitChars]
  | cons c cs =>
    unfold splitChars
    split
    · simp
    · split <;> simp

/-- The distinct members of a list, each where it occurs first. -/
def distinct {α : Type} [DecidableEq α] : List α → List α
  | [] => []
  | a :: as => a :: (distinct as).filter (· ≠ a)

@[simp] theorem mem_distinct {α : Type} [DecidableEq α] {as : List α} {a : α} :
    a ∈ distinct as ↔ a ∈ as := by
  induction as with
  | nil => rfl
  | cons b as ih =>
    by_cases same : a = b
    · simp [distinct, same]
    · simp [distinct, same, ih]

theorem nodup_distinct {α : Type} [DecidableEq α] (as : List α) : (distinct as).Nodup := by
  induction as with
  | nil => exact List.nodup_nil
  | cons a as ih =>
    refine List.nodup_cons.2 ⟨?_, ih.filter _⟩
    simp

/-- Distinct members stand in the order in which they occur first. -/
theorem pairwise_idxOf_distinct {α : Type} [DecidableEq α] (as : List α) :
    (distinct as).Pairwise fun a b => as.idxOf a < as.idxOf b := by
  induction as with
  | nil => exact List.Pairwise.nil
  | cons first as ih =>
    have hlater : ∀ a ∈ (distinct as).filter (· ≠ first),
        (first :: as).idxOf a = as.idxOf a + 1 := by
      intro a ha
      have hother : a ≠ first := by simpa using (List.mem_filter.1 ha).2
      rw [List.idxOf_cons, beq_false_of_ne hother.symm, cond_false]
    rw [distinct, List.pairwise_cons]
    constructor
    · intro a ha
      rw [List.idxOf_cons_self, hlater a ha]
      exact Nat.succ_pos _
    · refine (ih.filter _).imp_of_mem fun {a b} ha hb hbefore => ?_
      rw [hlater a ha, hlater b hb]
      exact Nat.succ_lt_succ hbefore

theorem distinct_append {α : Type} [DecidableEq α] (as bs : List α) :
    distinct (as ++ bs) = distinct as ++ (distinct bs).filter fun b => !as.contains b := by
  induction as with
  | nil => simp [distinct, List.filter_eq_self.2]
  | cons a as ih =>
    rw [List.cons_append, distinct, ih, List.filter_append, List.filter_filter, distinct]
    congr 2
    apply List.filter_congr
    intro b _
    by_cases hsame : b = a
    · simp [hsame]
    · simp [hsame]

theorem distinct_of_nodup {α : Type} [DecidableEq α] {as : List α} (h : as.Nodup) :
    distinct as = as := by
  induction as with
  | nil => rfl
  | cons a as ih =>
    obtain ⟨hfirst, hrest⟩ := List.nodup_cons.1 h
    rw [distinct, ih hrest, List.filter_eq_self.2]
    intro b hb
    have hother : b ≠ a := fun hsame => hfirst (hsame ▸ hb)
    simp [hother]

/-- One more member comes last unless it was there before. -/
theorem distinct_concat {α : Type} [DecidableEq α] (as : List α) (a : α) :
    distinct (as ++ [a]) = if a ∈ distinct as then distinct as else distinct as ++ [a] := by
  rw [distinct_append]
  by_cases hthere : a ∈ as <;> simp [distinct, hthere]

/-- Distinct members in front stay in front. -/
theorem append_filter_distinct {α : Type} [DecidableEq α] {as bs : List α} (h : as.Nodup) :
    as ++ (distinct (as ++ bs)).filter (fun b => !as.contains b) = distinct (as ++ bs) := by
  rw [distinct_append, distinct_of_nodup h, List.filter_append, List.filter_filter]
  simp

end SchemaLoom.Text
