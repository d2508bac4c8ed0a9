/-
How printed text divides into tokens, wherever it is moved.

Printers put pieces between marks and separators, and move what is nested to the right: every
line break of a piece is then followed by spaces that the piece knows nothing of (`shift`).  So a
piece writes some tokens if it divides into them however far it is moved, in front of everything
that its last token does not run into (`Writes`).  Behind a mark anything may stand, and such a
piece is told apart from the others (`Opens`).

Pieces are joined by looking only at where they meet, and what is moved divides as before.
-/
import Mathlib.Data.List.Forall2
import SchemaLoom.Proofs.Sdl.Lexing

namespace SchemaLoom.Sdl

open Text

/-! ### Moving to the right

Spaces are put behind line breaks only, so a text on one line stays as it is wherever it is moved.
-/

/-- Characters with spaces behind every line break. -/
def shift (n : Nat) (cs : List Char) : List Char :=
  cs.flatMap fun c => if c = '\n' then '\n' :: List.replicate n ' ' else [c]

variable {n : Nat}

@[simp] theorem shift_nil : shift n [] = [] := rfl

@[simp] theorem shift_append (cs ds : List Char) :
    shift n (cs ++ ds) = shift n cs ++ shift n ds :=
  List.flatMap_append

theorem shift_break (cs : List Char) :
    shift n ('\n' :: cs) = '\n' :: (List.replicate n ' ' ++ shift n cs) := by
  simp [shift]

theorem shift_cons {c : Char} (hc : c ≠ '\n') (cs : List Char) :
    shift n (c :: cs) = c :: shift n cs := by
  simp [shift, hc]

/-- A text on one line stays as it is. -/
theorem shift_eq_self {cs : List Char} (h : ∀ c ∈ cs, c ≠ '\n') : shift n cs = cs := by
  induction cs with
  | nil => rfl
  | cons c cs ih => rw [shift_cons (h c (by simp)), ih fun d hd => h d (by simp [hd])]

theorem shift_zero (cs : List Char) : shift 0 cs = cs := by
  induction cs with
  | nil => rfl
  | cons c cs ih =>
    by_cases hc : c = '\n'
    · rw [hc, shift_break, ih]
      rfl
    · rw [shift_cons hc, ih]

theorem shift_shift (n m : Nat) (cs : List Char) : shift n (shift m cs) = shift (n + m) cs := by
  induction cs with
  | nil => rfl
  | cons c cs ih =>
    by_cases hc : c = '\n'
    · subst hc
      have hspaces : shift n (List.replicate m ' ') = List.replicate m ' ' :=
        shift_eq_self fun d hd => by rw [List.eq_of_mem_replicate hd]; decide
      rw [shift_break, shift_break, shift_break, shift_append, hspaces, ih, ← List.append_assoc,
        List.replicate_append_replicate]
    · rw [shift_cons hc, shift_cons hc, shift_cons hc, ih]

theorem head?_shift (cs : List Char) : (shift n cs).head? = cs.head? := by
  cases cs with
  | nil => rfl
  | cons c cs =>
    by_cases hc : c = '\n'
    · rw [hc, shift_break]
      rfl
    · rw [shift_cons hc]
      rfl

theorem toList_indentBreaks (s : String) : (indentBreaks s).toList = shift 2 s.toList := by
  rw [indentBreaks, String.toList_ofList]
  rfl

/-! ### What tokens run into -/

/-- Any token may end in front of the text `cs`: it goes on with no name, number or quoted text. -/
def Detached (cs : List Char) : Prop :=
  ∀ c ∈ cs.head?, isNameContinue c = false ∧ c ≠ '.' ∧ c ≠ '"'

theorem detached_nil : Detached [] := by
  intro c hc
  cases hc

theorem detached_cons {c : Char} (hc : isNameContinue c = false ∧ c ≠ '.' ∧ c ≠ '"')
    (cs : List Char) : Detached (c :: cs) := by
  intro d hd
  cases hd
  exact hc

theorem detached_append {cs ds : List Char} (hcs : Detached cs) (hds : Detached ds) :
    Detached (cs ++ ds) := by
  cases cs with
  | nil => exact hds
  | cons c cs => exact detached_cons (hcs c rfl) (cs ++ ds)

theorem detached_shift {cs : List Char} (h : Detached cs) : Detached (shift n cs) := by
  unfold Detached
  rwa [head?_shift]

theorem Detached.apart {cs : List Char} (h : Detached cs) : Apart cs := fun c hc => (h c hc).1

/-- Any token may end in front of the text `s`, which is not empty. -/
def Detaches (s : String) : Prop := ∀ cs, Detached (s.toList ++ cs)

theorem Detaches.detached {s : String} (h : Detaches s) : Detached s.toList := by
  simpa using h []

theorem Detaches.append {s : String} (h : Detaches s) (t : String) : Detaches (s ++ t) := by
  intro cs
  rw [String.toList_append, List.append_assoc]
  exact h _

theorem Detaches.shift {s : String} (h : Detaches s) (cs : List Char) :
    Detached (shift n s.toList ++ cs) := by
  have hsame : (Sdl.shift n s.toList ++ cs).head? = (s.toList ++ cs).head? := by
    rw [List.head?_append, List.head?_append, head?_shift]
  unfold Detached
  rw [hsame]
  exact h cs

/-! ### Pieces

Most pieces are marks, of which it does not matter what stands behind them, or end with a name,
which must not go on.
-/

/-- The text `s` divides into the tokens `ts` wherever it is moved, whatever stands behind it. -/
def Opens (s : String) (ts : List Token) : Prop :=
  ∀ n rest, lex (shift n s.toList ++ rest) = ts ++ lex rest

/-- The text `s` divides into the tokens `ts` wherever it is moved, in front of everything that it
does not run into. -/
def Writes (s : String) (ts : List Token) : Prop :=
  ∀ n rest, Detached rest → lex (shift n s.toList ++ rest) = ts ++ lex rest

variable {s t : String} {ts us vs : List Token} {tss : List (List Token)}

theorem Opens.writes (h : Opens s ts) : Writes s ts := fun n rest _ => h n rest

theorem opens_empty : Opens "" [] := fun _ _ => rfl

theorem writes_empty : Writes "" [] := opens_empty.writes

/-- A text that separates tokens. -/
theorem opens_blank (h : ∀ c ∈ s.toList, isIgnored c = true) : Opens s [] := by
  intro n rest
  refine lex_blanks (fun c hc => ?_) rest
  obtain ⟨d, hd, hc⟩ := List.mem_flatMap.1 hc
  split at hc
  · rcases List.mem_cons.1 hc with rfl | hc
    · decide
    · rw [List.eq_of_mem_replicate hc]
      decide
  · rw [List.mem_singleton.1 hc]
    exact h d hd

theorem opens_mark {c : Char} {m : Punctuator} (hs : s.toList = [c])
    (hc : Punctuator.ofChar? c = some m) : Opens s [.punctuator m] := by
  intro n rest
  have hline : c ≠ '\n' := by
    rintro rfl
    cases hc
  rw [hs, shift_eq_self fun d hd => List.mem_singleton.1 hd ▸ hline]
  exact lex_mark hc rest

theorem opens_spread : Opens "..." [.punctuator .spread] := by
  intro n rest
  rw [shift_eq_self (by simp)]
  show lex ('.' :: '.' :: '.' :: rest) = _
  rw [lex.eq_def]
  rfl

theorem writes_name (h : isName s = true) : Writes s [.name s] := by
  intro n rest hrest
  have hline : ∀ c ∈ s.toList, c ≠ '\n' := by
    rintro c hc rfl
    exact absurd (continuesName_of_isName h _ hc) (by decide)
  rw [shift_eq_self hline]
  exact lex_name h hrest.apart

theorem Opens.append (hs : Opens s ts) (ht : Opens t us) : Opens (s ++ t) (ts ++ us) := by
  intro n rest
  rw [String.toList_append, shift_append, List.append_assoc, hs, ht, List.append_assoc]

/-- A piece behind one that nothing runs into. -/
theorem Opens.writes_append (hs : Opens s ts) (ht : Writes t us) : Writes (s ++ t) (ts ++ us) := by
  intro n rest hrest
  rw [String.toList_append, shift_append, List.append_assoc, hs, ht n rest hrest,
    List.append_assoc]

theorem Writes.append (hs : Writes s ts) (ht : Writes t us) (hdetached : Detached t.toList) :
    Writes (s ++ t) (ts ++ us) := by
  intro n rest hrest
  rw [String.toList_append, shift_append, List.append_assoc,
    hs n _ (detached_append (detached_shift hdetached) hrest), ht n rest hrest, List.append_assoc]

/-- A piece in front of one that it does not run into, and behind which anything may stand. -/
theorem Writes.opens_append (hs : Writes s ts) (ht : Opens t us) (hdetaches : Detaches t) :
    Opens (s ++ t) (ts ++ us) := by
  intro n rest
  rw [String.toList_append, shift_append, List.append_assoc, hs n _ (hdetaches.shift rest), ht,
    List.append_assoc]

/-- A text writes the tokens that it divides into. -/
theorem Writes.lex_eq (h : Writes s ts) : lex s.toList = ts ++ [.eof] := by
  have whole := h 0 [] detached_nil
  rwa [shift_zero, List.append_nil, lex_nil] at whole

/-- A text writes one token sequence only. -/
theorem Writes.unique (h : Writes s ts) (h' : Writes s us) : ts = us :=
  List.append_cancel_right (h.lex_eq.symm.trans h'.lex_eq)

/-- A text that writes something is not empty. -/
theorem Writes.ne_empty (h : Writes s ts) (hsome : ts ≠ []) : s ≠ "" := by
  rintro rfl
  exact hsome (h.unique writes_empty)

/-! ### Pieces with separators -/

/-- Pieces with separators between them, which write tokens of their own. -/
theorem writes_intercalate {separator : String} (hopens : Opens separator us)
    (hdetaches : Detaches separator) {pieces : List String}
    (h : List.Forall₂ Writes pieces tss) :
    Writes (separator.intercalate pieces) (us.intercalate tss) := by
  induction h with
  | nil => exact writes_empty
  | @cons s ts pieces tss hfirst hothers ih =>
    cases hothers with
    | nil =>
      rw [String.intercalate_singleton, List.intercalate_singleton]
      exact hfirst
    | cons hsecond hothers =>
      rw [String.intercalate_cons_cons, List.intercalate_cons_cons]
      exact (hfirst.opens_append hopens hdetaches).writes_append ih

theorem intercalate_nil_eq (tss : List (List Token)) : [].intercalate tss = tss.flatten := by
  induction tss with
  | nil => rfl
  | cons ts tss ih =>
    cases tss with
    | nil => simp
    | cons us tss => rw [List.intercalate_cons_cons, ih]; simp

/-- Pieces that are present, with blanks between them. -/
theorem writes_joinPresent {separator : String} (hblank : Opens separator [])
    (hdetaches : Detaches separator) {pieces : List String}
    (h : List.Forall₂ Writes pieces tss) : Writes (joinPresent separator pieces) tss.flatten := by
  have hpresent : ∃ uss, List.Forall₂ Writes (pieces.filter (· ≠ "")) uss ∧
      uss.flatten = tss.flatten := by
    induction h with
    | nil => exact ⟨[], .nil, rfl⟩
    | @cons s ts pieces tss hfirst hothers ih =>
      obtain ⟨uss, hpieces, hsame⟩ := ih
      by_cases hs : s = ""
      · subst hs
        refine ⟨uss, by simpa using hpieces, ?_⟩
        rw [hsame, hfirst.unique writes_empty]
        rfl
      · refine ⟨ts :: uss, ?_, by rw [List.flatten_cons, List.flatten_cons, hsame]⟩
        rw [List.filter_cons_of_pos (by simpa using hs)]
        exact .cons hfirst hpieces
  obtain ⟨uss, hpieces, hsame⟩ := hpresent
  rw [← hsame, ← intercalate_nil_eq]
  exact writes_intercalate hblank hdetaches hpieces

theorem opens_space : Opens " " [] := opens_blank (by simp [isIgnored])

theorem opens_lineBreak : Opens "\n" [] := opens_blank (by simp [isIgnored])

theorem detaches_space : Detaches " " := fun _ => detached_cons (by decide) _

theorem detaches_lineBreak : Detaches "\n" := fun _ => detached_cons (by decide) _

/-- Pieces that are present, with spaces between them. -/
theorem writes_words {pieces : List String} (h : List.Forall₂ Writes pieces tss) :
    Writes (joinPresent " " pieces) tss.flatten :=
  writes_joinPresent opens_space detaches_space h

/-! ### Pieces between delimiters -/

variable {opening closing : String}

theorem writes_enclose (hopening : Opens opening us) (h : Writes s ts)
    (hclosing : Writes closing vs)
    (hdetached : Detached closing.toList) (hsome : ts ≠ []) :
    Writes (enclose opening s closing) (us ++ ts ++ vs) := by
  rw [enclose, if_neg (h.ne_empty hsome)]
  exact (hopening.writes_append h).append hclosing hdetached

/-- What is between delimiters that stand apart is followed by anything. -/
theorem opens_enclose (hopening : Opens opening us) (h : Writes s ts) (hclosing : Opens closing vs)
    (hdetaches : Detaches closing) (hsome : ts ≠ []) :
    Opens (enclose opening s closing) (us ++ ts ++ vs) := by
  rw [enclose, if_neg (h.ne_empty hsome)]
  exact (hopening.writes_append h).opens_append hclosing hdetaches

/-- What is moved to the right divides as before. -/
theorem writes_indented (h : Writes s ts) : Writes (indented s) ts := by
  have hbreaks : Writes (indentBreaks s) ts := by
    intro n rest hrest
    rw [toList_indentBreaks, shift_shift]
    exact h (n + 2) rest hrest
  unfold indented
  by_cases hsome : ts = []
  · subst hsome
    rw [enclose]
    split
    · exact writes_empty
    · exact ((opens_blank (by simp [isIgnored])).writes_append hbreaks).append
        writes_empty detached_nil
  · have hspaces : Opens "  " [] := opens_blank (by simp [isIgnored])
    simpa using writes_enclose hspaces hbreaks writes_empty detached_nil hsome

/-- **Items on lines of their own between delimiters divide as the items do.** -/
theorem opens_enclosedLines (hopening : Opens opening us) (hclosing : Opens closing vs)
    {items : List String} (h : List.Forall₂ Writes items tss) (hsome : tss.flatten ≠ []) :
    Opens (enclosedLines opening closing items) (us ++ tss.flatten ++ vs) := by
  have hitems := writes_indented (writes_joinPresent opens_lineBreak detaches_lineBreak h)
  have hfront : Opens (opening ++ "\n") us := by simpa using hopening.append opens_lineBreak
  have hback : Opens ("\n" ++ closing) vs := by simpa using opens_lineBreak.append hclosing
  exact opens_enclose hfront hitems hback (detaches_lineBreak.append closing) hsome

theorem opens_braced {items : List String} (h : List.Forall₂ Writes items tss)
    (hsome : tss.flatten ≠ []) :
    Opens (braced items)
      (.punctuator .braceLeft :: (tss.flatten ++ [.punctuator .braceRight])) :=
  opens_enclosedLines (opens_mark rfl rfl) (opens_mark rfl rfl) h hsome

end SchemaLoom.Sdl
