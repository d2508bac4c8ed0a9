/-
How printed text divides into tokens.

Printed text is put together from names, from punctuation marks and from what separates them.  It
divides as its parts do, provided that no name runs into what follows it (`Apart`).  So a part
comes with a claim about everything that may stand behind it (`LexesTo`), and parts are joined by
looking only at where they meet (`LexesTo.append`).

The pieces of any text, which need not be printed, are followed in `Proofs.Sdl.Division`.
-/
import SchemaLoom.Sdl.Token.Lexer
import SchemaLoom.Text.CharClass
import SchemaLoom.Text.Layout

namespace SchemaLoom.Sdl

/-! ### Single tokens -/

/-- A name may end in front of the text `cs`. -/
def Apart (cs : List Char) : Prop := ∀ c ∈ cs.head?, isNameContinue c = false

theorem apart_nil : Apart [] := by
  intro c hc
  cases hc

theorem apart_cons {c : Char} (hc : isNameContinue c = false) (cs : List Char) :
    Apart (c :: cs) := by
  intro d hd
  cases hd
  exact hc

theorem apart_append {cs ds : List Char} (hcs : Apart cs) (hds : Apart ds) : Apart (cs ++ ds) := by
  cases cs with
  | nil => exact hds
  | cons c cs => exact apart_cons (hcs c rfl) (cs ++ ds)

theorem lex_nil : lex [] = [.eof] := by
  rw [lex]

/-- Characters that only separate tokens leave no trace. -/
theorem lex_ignored {c : Char} (hc : isIgnored c = true) (cs : List Char) :
    lex (c :: cs) = lex cs := by
  rw [lex.eq_def]
  simp [hc]

theorem lex_blanks {cs : List Char} (hcs : ∀ c ∈ cs, isIgnored c = true) (rest : List Char) :
    lex (cs ++ rest) = lex rest := by
  induction cs with
  | nil => rfl
  | cons c cs ih =>
    rw [List.cons_append, lex_ignored (hcs c (by simp))]
    exact ih fun d hd => hcs d (by simp [hd])

/-- A punctuation mark of one character is a token wherever it stands. -/
theorem lex_mark {c : Char} {m : Punctuator} (hc : Punctuator.ofChar? c = some m)
    (cs : List Char) : lex (c :: cs) = .punctuator m :: lex cs := by
  have classes : isIgnored c = false ∧ c ≠ '#' ∧ isNameStart c = false ∧ c ≠ '"' ∧
      (isDigit c || c == '-') = false ∧ c ≠ '.' := by
    unfold Punctuator.ofChar? at hc
    split at hc <;> first | decide | cases hc
  obtain ⟨hignored, hhash, hname, hquote, hdigit, hpoint⟩ := classes
  rw [lex.eq_def]
  simp [hignored, hhash, hname, hquote, hdigit, hpoint, hc]

theorem isNameContinue_of_isNameStart {c : Char} (hc : isNameStart c = true) :
    isNameContinue c = true := by
  simp only [isNameStart, isNameContinue, Char.isAlphanum, Bool.or_eq_true] at hc ⊢
  rcases hc with hc | hc
  · exact Or.inl (Or.inl hc)
  · exact Or.inr hc

/-- The first character of a name begins no other kind of token. -/
theorem not_isIgnored_of_isNameStart {c : Char} (hc : isNameStart c = true) :
    isIgnored c = false ∧ c ≠ '#' := by
  have apart : ∀ d : Char, isNameStart d = false → c ≠ d := by
    rintro d hd rfl
    rw [hc] at hd
    cases hd
  have hhash : c ≠ '#' := apart '#' (by decide)
  have hignored : isIgnored c = false := by
    simp [isIgnored, apart ' ' (by decide), apart '\t' (by decide), apart ',' (by decide),
      apart '\n' (by decide), apart '\r' (by decide), apart '\uFEFF' (by decide)]
  exact ⟨hignored, hhash⟩

/-- All characters of `s` may stand within a name. -/
def ContinuesName (s : String) : Prop := ∀ c ∈ s.toList, isNameContinue c = true

theorem continuesName_of_isName {s : String} (hname : isName s = true) : ContinuesName s := by
  unfold isName at hname
  intro c hc
  cases hs : s.toList with
  | nil => simp [hs] at hname
  | cons first cs =>
    simp only [hs, Bool.and_eq_true, List.all_eq_true] at hname
    rw [hs] at hc
    rcases List.mem_cons.1 hc with rfl | hc
    · exact isNameContinue_of_isNameStart hname.1
    · exact hname.2 c hc

/-- A character that cannot continue a name stands in none, which is what keeps the slash out of a
file's name and the point out of a path's steps. -/
theorem not_mem_of_isName {s : String} {c : Char} (hother : isNameContinue c = false)
    (hname : isName s = true) : c ∉ s.toList := fun hmem =>
  absurd (continuesName_of_isName hname c hmem) (by simp [hother])

/-- A name stays one if more of a name follows. -/
theorem isName_append {s t : String} (hname : isName s = true) (hmore : ContinuesName t) :
    isName (s ++ t) = true := by
  unfold isName at hname ⊢
  rw [String.toList_append]
  cases hs : s.toList with
  | nil => simp [hs] at hname
  | cons first cs =>
    simp only [hs, Bool.and_eq_true, List.all_eq_true] at hname
    simp only [List.cons_append, Bool.and_eq_true, List.all_append, List.all_eq_true]
    exact ⟨hname.1, hname.2, hmore⟩

/-- **A name is one token, unless it runs into what follows** (`Apart`). -/
theorem lex_name {s : String} (hname : isName s = true) {rest : List Char}
    (hapart : Apart rest) : lex (s.toList ++ rest) = .name s :: lex rest := by
  unfold isName at hname
  cases hs : s.toList with
  | nil => simp [hs] at hname
  | cons c cs =>
    simp only [hs, Bool.and_eq_true, List.all_eq_true] at hname
    obtain ⟨hstart, hall⟩ := hname
    obtain ⟨hignored, hhash⟩ := not_isIgnored_of_isNameStart hstart
    have taken : rest.takeWhile isNameContinue = [] ∧ rest.dropWhile isNameContinue = rest := by
      cases rest with
      | nil => exact ⟨rfl, rfl⟩
      | cons d rest => simp [hapart d rfl]
    rw [List.cons_append, lex.eq_def]
    simp only [hignored, hhash, hstart, Bool.false_eq_true, ↓reduceIte]
    rw [List.takeWhile_append_of_pos hall, List.dropWhile_append_of_pos hall, taken.1, taken.2,
      List.append_nil, ← hs, String.ofList_toList]

/-! ### Blank text -/

/-- The codes of the characters that a name can start with. -/
theorem toNat_of_isNameStart {c : Char} (h : isNameStart c = true) :
    (65 ≤ c.toNat ∧ c.toNat ≤ 90) ∨ (97 ≤ c.toNat ∧ c.toNat ≤ 122) ∨ c = '_' := by
  have hranges : (decide ('A'.val ≤ c.val ∧ c.val ≤ 'Z'.val) ||
      (decide ('a'.val ≤ c.val) && decide (c.val ≤ 'z'.val)) || c == '_') = true := h
  simp only [Bool.or_eq_true, Bool.and_eq_true, decide_eq_true_eq, beq_iff_eq,
    UInt32.le_iff_toNat_le] at hranges
  exact or_assoc.1 hranges

/-- White space starts neither a name nor a number. -/
theorem not_start_of_isBlankChar {c : Char} (h : Text.isBlankChar c = true) :
    isNameStart c = false ∧ isDigit c = false := by
  have hcode : c.toNat ≤ 0x20 ∨ 0x85 ≤ c.toNat := by
    simp only [Text.isBlankChar, Text.blankRanges, List.any_cons, List.any_nil, Bool.or_false,
      Bool.or_eq_true, Bool.and_eq_true, decide_eq_true_eq] at h
    omega
  refine ⟨?_, ?_⟩
  · rw [Bool.eq_false_iff]
    intro hstart
    rcases toNat_of_isNameStart hstart with hupper | hlower | rfl
    · omega
    · omega
    · exact absurd hcode (by decide)
  · rw [Bool.eq_false_iff]
    intro hdigit
    simp only [isDigit, Bool.and_eq_true, decide_eq_true_eq, Char.le_def,
      UInt32.le_iff_toNat_le] at hdigit
    change 48 ≤ c.toNat ∧ c.toNat ≤ 57 at hdigit
    omega

/-- White space starts no token but an end or a sign that the division stops. -/
theorem lex_isBlankChar {c : Char} (h : Text.isBlankChar c = true) (hignored : isIgnored c = false)
    (cs : List Char) : lex (c :: cs) = [.invalid (.unexpectedCharacter c)] := by
  obtain ⟨hname, hdigit⟩ := not_start_of_isBlankChar h
  have hapart : ∀ d : Char, Text.isBlankChar d = false → c ≠ d := by
    rintro d hd rfl
    rw [h] at hd
    cases hd
  have hmark : Punctuator.ofChar? c = none := by
    unfold Punctuator.ofChar?
    split <;> first | rfl | exact absurd rfl (hapart _ (by decide))
  have hhash : c ≠ '#' := hapart '#' (by decide)
  have hquote : c ≠ '"' := hapart '"' (by decide)
  have hminus : c ≠ '-' := hapart '-' (by decide)
  have hpoint : c ≠ '.' := hapart '.' (by decide)
  have hsingle : c ≠ '\'' := hapart '\'' (by decide)
  rw [lex.eq_def]
  simp [hignored, hhash, hname, hquote, hdigit, hminus, hpoint, hmark, hsingle]

/-- A blank text starts with no token. -/
theorem lex_of_isBlank {cs : List Char} (h : ∀ c ∈ cs, Text.isBlankChar c = true) :
    ∃ t ∈ (lex cs).head?, t = .eof ∨ ∃ fault, t = .invalid fault := by
  induction cs with
  | nil => exact ⟨.eof, by rw [lex_nil]; rfl, Or.inl rfl⟩
  | cons c cs ih =>
    cases hignored : isIgnored c with
    | true =>
      rw [lex_ignored hignored]
      exact ih fun d hd => h d (by simp [hd])
    | false =>
      rw [lex_isBlankChar (h c (by simp)) hignored]
      exact ⟨_, rfl, Or.inr ⟨_, rfl⟩⟩
/-! ### Parts of a text

`LexesTo` is claimed in front of everything that the part does not run into.  So the claim for two
parts needs only that the first one does not run into the second.
-/

/-- A text that divides into some tokens, whatever follows it without running into it. -/
def LexesTo (cs : List Char) (ts : List Token) : Prop :=
  ∀ rest, Apart rest → lex (cs ++ rest) = ts ++ lex rest

theorem lexesTo_nil : LexesTo [] [] := fun _ _ => rfl

theorem lexesTo_name {s : String} (hname : isName s = true) : LexesTo s.toList [.name s] :=
  fun _ hapart => lex_name hname hapart

/-- Two parts divide one after the other if the first does not run into the second. -/
theorem LexesTo.append {cs ds : List Char} {ts us : List Token} (hcs : LexesTo cs ts)
    (hds : LexesTo ds us) (hapart : Apart ds) : LexesTo (cs ++ ds) (ts ++ us) := by
  intro rest hrest
  rw [List.append_assoc, hcs _ (apart_append hapart hrest), hds rest hrest, List.append_assoc]

/-- Behind a mark anything may stand. -/
theorem LexesTo.mark {c : Char} {m : Punctuator} (hc : Punctuator.ofChar? c = some m)
    {cs : List Char} {ts : List Token} (hcs : LexesTo cs ts) :
    LexesTo (c :: cs) (.punctuator m :: ts) := by
  intro rest hrest
  rw [List.cons_append, lex_mark hc, hcs rest hrest, List.cons_append]

theorem LexesTo.ignored {c : Char} (hc : isIgnored c = true) {cs : List Char} {ts : List Token}
    (hcs : LexesTo cs ts) : LexesTo (c :: cs) ts := by
  intro rest hrest
  rw [List.cons_append, lex_ignored hc, hcs rest hrest]

theorem LexesTo.blanks {bs : List Char} (hbs : ∀ c ∈ bs, isIgnored c = true) {cs : List Char}
    {ts : List Token} (hcs : LexesTo cs ts) : LexesTo (bs ++ cs) ts := by
  intro rest hrest
  rw [List.append_assoc, lex_blanks hbs, hcs rest hrest]

/-- A name in front of something that it does not run into. -/
theorem LexesTo.name {s : String} (hname : isName s = true) {cs : List Char} {ts : List Token}
    (hcs : LexesTo cs ts) (hapart : Apart cs) : LexesTo (s.toList ++ cs) (.name s :: ts) :=
  (lexesTo_name hname).append hcs hapart

/-- Characters that separate tokens. -/
def Separates (sep : List Char) : Prop := sep ≠ [] ∧ ∀ c ∈ sep, isIgnored c = true

theorem isNameContinue_of_isIgnored {c : Char} (hc : isIgnored c = true) :
    isNameContinue c = false := by
  simp only [isIgnored, Bool.or_eq_true, beq_iff_eq] at hc
  rcases hc with ((((rfl | rfl) | rfl) | rfl) | rfl) | rfl <;> decide

theorem Separates.apart {sep : List Char} (hsep : Separates sep) (cs : List Char) :
    Apart (sep ++ cs) := by
  obtain ⟨hnonempty, hall⟩ := hsep
  cases sep with
  | nil => exact absurd rfl hnonempty
  | cons c sep => exact apart_cons (isNameContinue_of_isIgnored (hall c (by simp))) (sep ++ cs)

/-- Parts with separators between them divide one after the other. -/
theorem lexesTo_intercalate {α : Type} {text : α → List Char} {tokens : α → List Token}
    {sep : List Char} (hsep : Separates sep) {as : List α}
    (hparts : ∀ a ∈ as, LexesTo (text a) (tokens a)) :
    LexesTo (sep.intercalate (as.map text)) (as.flatMap tokens) := by
  induction as with
  | nil => exact lexesTo_nil
  | cons a as ih =>
    have first := hparts a (by simp)
    have others := ih fun b hb => hparts b (by simp [hb])
    cases as with
    | nil => simpa using first
    | cons b as =>
      have joined := first.append (LexesTo.blanks hsep.2 others) (hsep.apart _)
      simpa using joined

/-- Parts each behind a separator divide one after the other. -/
theorem lexesTo_flatMap {α : Type} {text : α → List Char} {tokens : α → List Token} {as : List α}
    (hparts : ∀ a ∈ as, LexesTo (text a) (tokens a) ∧ Apart (text a)) :
    LexesTo (as.flatMap text) (as.flatMap tokens) ∧ Apart (as.flatMap text) := by
  induction as with
  | nil => exact ⟨lexesTo_nil, apart_nil⟩
  | cons a as ih =>
    obtain ⟨hfirst, hfirstapart⟩ := hparts a (by simp)
    obtain ⟨hothers, hothersapart⟩ := ih fun b hb => hparts b (by simp [hb])
    rw [List.flatMap_cons, List.flatMap_cons]
    exact ⟨hfirst.append hothers hothersapart, apart_append hfirstapart hothersapart⟩

/-- The tokens of a whole text. -/
theorem LexesTo.lex_eq {cs : List Char} {ts : List Token} (hcs : LexesTo cs ts) :
    lex cs = ts ++ [.eof] := by
  have whole := hcs [] apart_nil
  rwa [List.append_nil, lex_nil] at whole

end SchemaLoom.Sdl
