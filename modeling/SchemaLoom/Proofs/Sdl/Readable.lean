/-
Tokens are written as they were read.

Dividing a text makes tokens of names, numbers and quoted texts of certain forms only
(`Token.IsReadable`).  Written again, a token of such a form divides into itself, wherever it is
moved.

Most of the module is about numbers.  A number is read part by part, and each part ends where it
ended before (`Rereads`), since no part is followed by a digit (`Parts`).
-/
import SchemaLoom.Outcome
import SchemaLoom.Proofs.Sdl.Block

namespace SchemaLoom.Sdl

variable {cs rest : List Char} {t : Token}

/-- The token is of a form that is read again from what it is written as. -/
def Token.IsReadable : Token → Prop
  | .name n => isName n = true
  | .int digits => Writes digits [.int digits]
  | .float digits => Writes digits [.float digits]
  | .blockString text => ∃ lines, BlockText.IsDedented lines ∧ text = BlockText.ofLines lines
  | _ => True

/-! ### Numbers

Each reader of a part comes with two facts: what it took and left is what was there, and the same
part is taken again in front of whatever stops it.
-/

theorem ne_of_isDigit {c d : Char} (hc : isDigit c = true) (hd : isDigit d = false) : c ≠ d := by
  rintro rfl
  rw [hc] at hd
  cases hd

theorem isNameContinue_of_isDigit {c : Char} (hc : isDigit c = true) :
    isNameContinue c = true := by
  have hbounds : '0' ≤ c ∧ c ≤ '9' := by simpa [isDigit] using hc
  simp only [isNameContinue, Char.isAlphanum, Bool.or_eq_true]
  refine Or.inl (Or.inr ?_)
  rw [Char.isDigit, Bool.and_eq_true, decide_eq_true_eq, decide_eq_true_eq]
  exact ⟨hbounds.1, hbounds.2⟩

theorem isIgnored_of_isDigit {c : Char} (hc : isDigit c = true) : isIgnored c = false := by
  have hother : ∀ d : Char, isDigit d = false → c ≠ d := fun d hd => ne_of_isDigit hc hd
  simp [isIgnored, hother ' ' (by decide), hother '\t' (by decide), hother ',' (by decide),
    hother '\n' (by decide), hother '\r' (by decide), hother '\uFEFF' (by decide)]

theorem isNameStart_of_isDigit {c : Char} (hc : isDigit c = true) : isNameStart c = false := by
  have hbounds : '0' ≤ c ∧ c ≤ '9' := by simpa [isDigit] using hc
  have hlow : c.toNat ≤ 57 := UInt32.le_iff_toNat_le.1 hbounds.2
  rw [Bool.eq_false_iff]
  intro hstart
  rcases toNat_of_isNameStart hstart with hupper | hlower | rfl
  · omega
  · omega
  · exact absurd hc (by decide)

/-- What reading a part of a number gives is given again in front of everything that stops the
part. -/
structure Rereads (read : List Char → Except LexFault NumberPart) (part : List Char)
    (stops : Char → Prop) : Prop where
  solid : ∀ c ∈ part, isIgnored c = false
  again : ∀ rest, (∀ c ∈ rest.head?, stops c) → read (part ++ rest) = .ok (part, rest)

/-- A run of digits starts with a digit. -/
theorem exists_digit_of_digitRun {r : NumberPart} (h : digitRun cs = .ok r) :
    ∃ c tail, cs = c :: tail ∧ isDigit c = true ∧
      r = (c :: tail.takeWhile isDigit, tail.dropWhile isDigit) := by
  unfold digitRun at h
  split at h
  next c tail =>
    split at h
    next hc =>
      cases h
      exact ⟨c, tail, rfl, hc, rfl⟩
    · cases h
  · cases h

theorem rereads_digitRun {r : NumberPart} (h : digitRun cs = .ok r) :
    Rereads digitRun r.1 (fun c => isDigit c = false) := by
  obtain ⟨c, tail, -, hc, rfl⟩ := exists_digit_of_digitRun h
  have hdigits : ∀ d ∈ tail.takeWhile isDigit, isDigit d = true :=
    fun d hd => List.all_eq_true.1 List.all_takeWhile d hd
  refine ⟨?_, fun rest hrest => ?_⟩
  · exact List.forall_mem_cons.2 ⟨isIgnored_of_isDigit hc,
      fun d hd => isIgnored_of_isDigit (hdigits d hd)⟩
  · have hstop : rest.takeWhile isDigit = [] ∧ rest.dropWhile isDigit = rest := by
      cases rest with
      | nil => exact ⟨rfl, rfl⟩
      | cons d rest => simp [hrest d rfl]
    rw [List.cons_append, digitRun, if_pos hc, List.takeWhile_append_of_pos hdigits,
      List.dropWhile_append_of_pos hdigits, hstop.1, hstop.2, List.append_nil]

/-- The whole part of a number keeps the digit that it starts with. -/
theorem exists_digit_of_integerPart {r : NumberPart} (h : integerPart cs = .ok r) :
    ∃ c tail ds, cs = c :: tail ∧ r.1 = c :: ds ∧ isDigit c = true := by
  unfold integerPart at h
  split at h
  · split at h
    · cases h
    · cases h
      exact ⟨'0', _, [], rfl, rfl, by decide⟩
  · obtain ⟨c, tail, hcs, hc, rfl⟩ := exists_digit_of_digitRun h
    exact ⟨c, tail, _, hcs, rfl, hc⟩

theorem rereads_integerPart {r : NumberPart} (h : integerPart cs = .ok r) :
    Rereads integerPart r.1 (fun c => isDigit c = false) := by
  unfold integerPart at h
  split at h
  next tail =>
    split at h
    · cases h
    · cases h
      refine ⟨by simp [isIgnored], fun rest hrest => ?_⟩
      have hstop : ¬ rest.head?.any isDigit = true := by
        cases rest with
        | nil => simp
        | cons d rest => simp [hrest d rfl]
      rw [List.singleton_append, integerPart, if_neg hstop]
  next hother =>
    have hrun := rereads_digitRun h
    refine ⟨hrun.solid, fun rest hrest => ?_⟩
    have hfirst : ∀ tail, r.1 ++ rest ≠ '0' :: tail := by
      intro tail hsame
      obtain ⟨c, after, hcs, -, rfl⟩ := exists_digit_of_digitRun h
      exact hother after (by rw [hcs, (List.cons.inj hsame).1])
    rw [← hrun.again rest hrest]
    unfold integerPart
    split
    next tail hsame => exact absurd hsame (hfirst tail)
    · rfl

theorem rereads_fractionPart {r : NumberPart} (h : fractionPart cs = .ok r) :
    Rereads fractionPart r.1 (fun c => isDigit c = false ∧ c ≠ '.') ∧
      ∀ c ∈ r.1.head?, c = '.' := by
  unfold fractionPart at h
  split at h
  · obtain ⟨s, hs, rfl⟩ := Outcome.of_map_eq_ok h
    have hrun := rereads_digitRun hs
    refine ⟨⟨?_, fun rest hrest => ?_⟩, by simp⟩
    · intro c hc
      rcases List.mem_cons.1 hc with rfl | hc
      · decide
      · exact hrun.solid c hc
    · rw [List.cons_append, fractionPart, hrun.again rest fun c hc => (hrest c hc).1]
      rfl
  · cases h
    refine ⟨⟨by simp, fun rest hrest => ?_⟩, by simp⟩
    unfold fractionPart
    split
    next tail hsame =>
      rw [List.nil_append] at hsame
      subst hsame
      exact absurd rfl (hrest '.' rfl).2
    · rfl

/-- A sign, or its absence, is read again in front of a digit. -/
theorem signPart_again (cs : List Char) : (∀ c ∈ (signPart cs).1, isIgnored c = false) ∧
    ∀ {c : Char} {ds : List Char}, isDigit c = true →
      signPart ((signPart cs).1 ++ c :: ds) = ((signPart cs).1, c :: ds) := by
  have hnone : ∀ {c : Char} {ds : List Char}, isDigit c = true →
      signPart (c :: ds) = ([], c :: ds) := by
    intro c ds hc
    have hsign : ¬ (c = '-' ∨ c = '+') := by
      rintro (rfl | rfl) <;> exact absurd hc (by decide)
    rw [signPart, if_neg hsign]
  cases cs with
  | nil => exact ⟨fun _ h => (nomatch h), fun hc => hnone hc⟩
  | cons d tail =>
    by_cases hd : d = '-' ∨ d = '+'
    · rw [signPart, if_pos hd]
      refine ⟨fun c hc => ?_, fun {c ds} hc => ?_⟩
      · rw [List.mem_singleton.1 hc]
        rcases hd with rfl | rfl <;> decide
      · rw [List.singleton_append, signPart, if_pos hd]
    · rw [signPart, if_neg hd]
      exact ⟨fun _ h => (nomatch h), fun hc => hnone hc⟩

theorem rereads_exponentPart {r : NumberPart} (h : exponentPart cs = .ok r) :
    Rereads exponentPart r.1 (fun c => isDigit c = false ∧ c ≠ 'e' ∧ c ≠ 'E') ∧
      ∀ c ∈ r.1.head?, c = 'e' ∨ c = 'E' := by
  have habsent : ∀ rest : List Char,
      (∀ c ∈ rest.head?, isDigit c = false ∧ c ≠ 'e' ∧ c ≠ 'E') →
      exponentPart ([] ++ rest) = .ok ([], rest) := by
    intro rest hrest
    cases rest with
    | nil => rfl
    | cons c rest =>
      have hother : ¬ (c = 'e' ∨ c = 'E') := by
        rw [not_or]
        exact (hrest c rfl).2
      rw [List.nil_append, exponentPart, if_neg hother]
  unfold exponentPart at h
  split at h
  next c tail =>
    split at h
    next hc =>
      obtain ⟨s, hs, rfl⟩ := Outcome.of_map_eq_ok h
      have hrun := rereads_digitRun hs
      obtain ⟨hsolid, hsign⟩ := signPart_again tail
      refine ⟨⟨?_, fun rest hrest => ?_⟩, by simpa using hc⟩
      · intro b hb
        simp only [List.cons_append, List.mem_cons, List.mem_append] at hb
        rcases hb with rfl | hb | hb
        · rcases hc with rfl | rfl <;> decide
        · exact hsolid b hb
        · exact hrun.solid b hb
      · have hdigits : signPart ((signPart tail).1 ++ (s.1 ++ rest))
            = ((signPart tail).1, s.1 ++ rest) := by
          obtain ⟨d, after, -, hd, rfl⟩ := exists_digit_of_digitRun hs
          exact hsign hd
        rw [List.cons_append, List.cons_append, List.append_assoc, exponentPart, if_pos hc, hdigits,
          hrun.again rest fun b hb => (hrest b hb).1]
        rfl
    · cases h
      exact ⟨⟨by simp, habsent⟩, by simp⟩
  · cases h
    exact ⟨⟨by simp, habsent⟩, by simp⟩

theorem minusPart_of_ne {c : Char} (h : c ≠ '-') (tail : List Char) :
    minusPart (c :: tail) = ([], c :: tail) := by
  unfold minusPart
  split
  next hsame => exact absurd (List.cons.inj hsame).1 h
  · rfl

theorem minusPart_again (cs : List Char) : (∀ c ∈ (minusPart cs).1, isIgnored c = false) ∧
    ∀ {c : Char} {ds : List Char}, isDigit c = true →
      minusPart ((minusPart cs).1 ++ c :: ds) = ((minusPart cs).1, c :: ds) := by
  unfold minusPart
  split
  · exact ⟨by simp [isIgnored], fun _ => rfl⟩
  · exact ⟨by simp, fun hc => minusPart_of_ne (ne_of_isDigit hc (by decide)) _⟩

/-- A number starts with a digit, or with a minus sign. -/
theorem first_of_readNumber (h : readNumber cs = .ok (t, rest)) :
    ∃ c tail, cs = c :: tail ∧ (isDigit c = true ∨ c = '-') := by
  unfold readNumber at h
  obtain ⟨whole, hwhole, -⟩ := Outcome.of_bind_eq_ok h
  cases cs with
  | nil => cases hwhole
  | cons c tail =>
    by_cases hminus : c = '-'
    · exact ⟨c, tail, rfl, Or.inr hminus⟩
    · rw [minusPart_of_ne hminus] at hwhole
      obtain ⟨d, after, -, hcs, -, hd⟩ := exists_digit_of_integerPart hwhole
      cases hcs
      exact ⟨c, tail, rfl, Or.inl hd⟩

/-- A number is one token. -/
theorem lex_number (h : readNumber cs = .ok (t, rest)) : lex cs = t :: lex rest := by
  obtain ⟨c, tail, rfl, hfirst⟩ := first_of_readNumber h
  have hclass : isIgnored c = false ∧ c ≠ '#' ∧ isNameStart c = false ∧ c ≠ '"' ∧
      (isDigit c || c == '-') = true := by
    rcases hfirst with hdigit | rfl
    · exact ⟨isIgnored_of_isDigit hdigit, ne_of_isDigit hdigit (by decide),
        isNameStart_of_isDigit hdigit, ne_of_isDigit hdigit (by decide), by simp [hdigit]⟩
    · decide
  obtain ⟨hignored, hhash, hname, hquote, hnumber⟩ := hclass
  rw [lex.eq_def]
  simp only [hignored, hhash, hname, hquote, hnumber, Bool.false_eq_true, ↓reduceIte]
  split
  next hread => rw [h] at hread; cases hread; rfl
  next hread => rw [h] at hread; cases hread

/-- A number may end in front of the character `c`. -/
structure EndsNumber (c : Char) : Prop where
  noDigit : isDigit c = false
  noPoint : c ≠ '.'
  noName : isNameStart c = false

theorem EndsNumber.noMark {c : Char} (h : EndsNumber c) : c ≠ 'e' ∧ c ≠ 'E' := by
  constructor <;> rintro rfl <;> exact absurd h.noName (by decide)

/-- A number may end where any token may. -/
theorem Detached.endsNumber (h : Detached rest) : ∀ c ∈ rest.head?, EndsNumber c := by
  intro c hc
  obtain ⟨hname, hpoint, -⟩ := h c hc
  refine ⟨?_, hpoint, ?_⟩
  · exact Bool.eq_false_iff.2 fun hdigit => by simp [isNameContinue_of_isDigit hdigit] at hname
  · exact Bool.eq_false_iff.2 fun hstart => by simp [isNameContinue_of_isNameStart hstart] at hname

/-- The part that was read and what is left are what was there, and no digit is the first of what is
left. -/
structure Parts (cs : List Char) (r : NumberPart) : Prop where
  eq : cs = r.1 ++ r.2
  noDigit : ∀ c ∈ r.2.head?, isDigit c = false

theorem parts_digitRun {r : NumberPart} (h : digitRun cs = .ok r) : Parts cs r := by
  obtain ⟨c, tail, rfl, -, rfl⟩ := exists_digit_of_digitRun h
  refine ⟨by simp [List.takeWhile_append_dropWhile], fun d hd => ?_⟩
  have hfirst := List.head?_dropWhile_not isDigit tail
  rw [Option.mem_def.1 hd] at hfirst
  simpa using hfirst

theorem parts_integerPart {r : NumberPart} (h : integerPart cs = .ok r) : Parts cs r := by
  unfold integerPart at h
  split at h
  next tail =>
    split at h
    · cases h
    next hnone =>
      cases h
      refine ⟨rfl, fun c hc => ?_⟩
      rw [Option.mem_def.1 hc] at hnone
      simpa using hnone
  · exact parts_digitRun h

theorem parts_fractionPart {r : NumberPart} (hbefore : ∀ c ∈ cs.head?, isDigit c = false)
    (h : fractionPart cs = .ok r) : Parts cs r := by
  unfold fractionPart at h
  split at h
  · obtain ⟨s, hs, rfl⟩ := Outcome.of_map_eq_ok h
    exact ⟨by rw [(parts_digitRun hs).eq]; rfl, (parts_digitRun hs).noDigit⟩
  · cases h
    exact ⟨rfl, hbefore⟩

theorem signPart_append (cs : List Char) : (signPart cs).1 ++ (signPart cs).2 = cs := by
  unfold signPart
  split
  · split <;> rfl
  · rfl

theorem parts_exponentPart {r : NumberPart} (hbefore : ∀ c ∈ cs.head?, isDigit c = false)
    (h : exponentPart cs = .ok r) : Parts cs r := by
  unfold exponentPart at h
  split at h
  next c tail =>
    split at h
    · obtain ⟨s, hs, rfl⟩ := Outcome.of_map_eq_ok h
      refine ⟨?_, (parts_digitRun hs).noDigit⟩
      have htail : tail = (signPart tail).1 ++ (s.1 ++ s.2) := by
        rw [← (parts_digitRun hs).eq, signPart_append]
      exact (congrArg (c :: ·) htail).trans (by simp)
    · cases h
      exact ⟨rfl, hbefore⟩
  · cases h
    exact ⟨rfl, hbefore⟩

theorem minusPart_append (cs : List Char) : (minusPart cs).1 ++ (minusPart cs).2 = cs := by
  unfold minusPart
  split <;> rfl

/-- **What a number is written as: it is taken off the front, its token holds it, and in front of
what may stand behind a number the same number is read from it.** -/
theorem exists_written_of_readNumber (h : readNumber cs = .ok (t, rest)) : ∃ written : List Char,
    cs = written ++ rest ∧
    (t = .int (String.ofList written) ∨ t = .float (String.ofList written)) ∧
    (∀ c ∈ written, isIgnored c = false) ∧ (∀ c ∈ rest.head?, EndsNumber c) ∧
    ∀ after, (∀ c ∈ after.head?, EndsNumber c) →
      readNumber (written ++ after) = .ok (t, after) := by
  unfold readNumber at h
  obtain ⟨whole, hwhole, h⟩ := Outcome.of_bind_eq_ok h
  obtain ⟨fraction, hfraction, h⟩ := Outcome.of_bind_eq_ok h
  obtain ⟨exponent, hexponent, h⟩ := Outcome.of_bind_eq_ok h
  have wholeParts := parts_integerPart hwhole
  have fractionParts := parts_fractionPart wholeParts.noDigit hfraction
  have exponentParts := parts_exponentPart fractionParts.noDigit hexponent
  have wholeAgain := rereads_integerPart hwhole
  obtain ⟨c, -, ds, -, hdigits, hdigit⟩ := exists_digit_of_integerPart hwhole
  obtain ⟨fractionAgain, hpoint⟩ := rereads_fractionPart hfraction
  obtain ⟨exponentAgain, hmark⟩ := rereads_exponentPart hexponent
  obtain ⟨hminussolid, hminus⟩ := minusPart_again cs
  simp only at h
  split at h
  · cases h
  next hbehind =>
  cases h
  refine ⟨(minusPart cs).1 ++ whole.1 ++ fraction.1 ++ exponent.1, ?_, ?_, ?_, ?_,
    fun after hafter => ?_⟩
  · have hwritten :
        cs = (minusPart cs).1 ++ (whole.1 ++ (fraction.1 ++ (exponent.1 ++ exponent.2))) := by
      rw [← exponentParts.eq, ← fractionParts.eq, ← wholeParts.eq, minusPart_append]
    exact hwritten.trans (by simp)
  · split
    · exact Or.inl rfl
    · exact Or.inr rfl
  · simp only [List.mem_append]
    rintro d (((hd | hd) | hd) | hd)
    · exact hminussolid d hd
    · exact wholeAgain.solid d hd
    · exact fractionAgain.solid d hd
    · exact exponentAgain.solid d hd
  · intro d hd
    rw [Option.mem_def.1 hd] at hbehind
    simp only [Option.any_some, Bool.or_eq_true, beq_iff_eq, not_or, Bool.not_eq_true] at hbehind
    exact ⟨exponentParts.noDigit d hd, hbehind.1, hbehind.2⟩
  -- Each part is read again because the one behind it begins with something that stops it.
  · have hexponentstop : ∀ d ∈ (exponent.1 ++ after).head?, isDigit d = false ∧ d ≠ '.' :=
      forall_head?_append (fun d hd => by rcases hmark d hd with rfl | rfl <;> decide)
        fun d hd => ⟨(hafter d hd).noDigit, (hafter d hd).noPoint⟩
    have hfractionstop : ∀ d ∈ (fraction.1 ++ (exponent.1 ++ after)).head?, isDigit d = false :=
      forall_head?_append (fun d hd => by rw [hpoint d hd]; decide) fun d hd =>
        (hexponentstop d hd).1
    have hfirst : minusPart ((minusPart cs).1 ++ (whole.1 ++ (fraction.1 ++ (exponent.1 ++ after))))
        = ((minusPart cs).1, whole.1 ++ (fraction.1 ++ (exponent.1 ++ after))) := by
      rw [hdigits, List.cons_append]
      exact hminus hdigit
    have hlast : ¬ (after.head?.any fun c => c == '.' || isNameStart c) = true := by
      cases after with
      | nil => simp
      | cons d after => simp [(hafter d rfl).noPoint, (hafter d rfl).noName]
    simp only [List.append_assoc, readNumber, hfirst, wholeAgain.again _ hfractionstop,
      fractionAgain.again _ hexponentstop,
      exponentAgain.again _ fun d hd => ⟨(hafter d hd).noDigit, (hafter d hd).noMark⟩,
      Outcome.ok_bind, if_neg hlast]
    rfl

/-- **A number is read again from its digits.** -/
theorem isReadable_readNumber (h : readNumber cs = .ok (t, rest)) : t.IsReadable := by
  obtain ⟨written, -, htoken, hsolid, -, hagain⟩ := exists_written_of_readNumber h
  have hline : ∀ c ∈ written, c ≠ '\n' := by
    rintro c hc rfl
    exact absurd (hsolid _ hc) (by decide)
  have hwrites : Writes (String.ofList written) [t] := by
    intro n after hafter
    rw [String.toList_ofList, shift_eq_self hline]
    exact lex_number (hagain after hafter.endsNumber)
  rcases htoken with rfl | rfl <;> exact hwrites

/-! ### All tokens -/

/-- The lines of a block are unbroken. -/
theorem unbroken_readBlock {line : List Char} {lines : List (List Char)}
    (hline : ∀ c ∈ line, isLineBreak c = false) (h : readBlock line cs = .ok (lines, rest)) :
    ∀ l ∈ lines, ∀ c ∈ l, isLineBreak c = false := by
  have hnone : ∀ c ∈ ([] : List Char), isLineBreak c = false := fun _ h => nomatch h
  have hreverse : ∀ {line : List Char}, (∀ c ∈ line, isLineBreak c = false) →
      ∀ c ∈ line.reverse, isLineBreak c = false := fun h c hc => h c (List.mem_reverse.1 hc)
  fun_induction readBlock line cs generalizing lines rest with
  | case1 =>
    cases h
    simpa using hreverse hline
  | case2 line tail ih =>
    refine ih (fun c hc => ?_) h
    simp only [List.mem_cons] at hc
    rcases hc with rfl | rfl | rfl | hc
    · decide
    · decide
    · decide
    · exact hline c hc
  | case3 line tail ih =>
    obtain ⟨r, hr, he⟩ := Outcome.of_map_eq_ok h
    cases he
    exact List.forall_mem_cons.2 ⟨hreverse hline, ih hnone hr⟩
  | case4 line c tail _ _ _ hc ih =>
    obtain ⟨r, hr, he⟩ := Outcome.of_map_eq_ok h
    cases he
    exact List.forall_mem_cons.2 ⟨hreverse hline, ih hnone hr⟩
  | case5 line c tail _ _ _ hc ih =>
    exact ih (List.forall_mem_cons.2 ⟨by simpa using hc, hline⟩) h
  | case6 => cases h

theorem isReadable_readQuoted (h : readQuoted cs = .ok (t, rest)) : t.IsReadable := by
  unfold readQuoted at h
  split at h
  · obtain ⟨r, hread, h⟩ := Outcome.of_map_eq_ok h
    cases h
    have hnone : ∀ c ∈ ([] : List Char), isLineBreak c = false := fun _ h => nomatch h
    have hunbroken := unbroken_readBlock hnone hread
    exact ⟨_, BlockText.isDedented_dedent hunbroken, rfl⟩
  · obtain ⟨r, -, h⟩ := Outcome.of_map_eq_ok h
    cases h
    trivial

theorem isName_takeWhile {c : Char} (hc : isNameStart c = true) (cs : List Char) :
    isName (String.ofList (c :: cs.takeWhile isNameContinue)) = true := by
  unfold isName
  rw [String.toList_ofList]
  simp only [hc, Bool.true_and]
  exact List.all_takeWhile

/-- **Every token of a text is of a form that is read again.** -/
theorem isReadable_lex (cs : List Char) : ∀ t ∈ lex cs, t.IsReadable := by
  fun_induction lex cs with
  | case1 => simp [Token.IsReadable]
  | case2 c rest _ ih => exact ih
  | case3 rest _ ih => exact ih
  | case4 c rest _ _ hstart ih => exact List.forall_mem_cons.2 ⟨isName_takeWhile hstart rest, ih⟩
  | case5 rest token after hread _ _ _ ih =>
    exact List.forall_mem_cons.2 ⟨isReadable_readQuoted hread, ih⟩
  | case6 => simp [Token.IsReadable]
  | case7 c rest _ _ _ _ _ token after hread ih =>
    exact List.forall_mem_cons.2 ⟨isReadable_readNumber hread, ih⟩
  | case8 => simp [Token.IsReadable]
  | case9 rest _ _ _ _ _ ih => exact List.forall_mem_cons.2 ⟨trivial, ih⟩
  | case10 => simp [Token.IsReadable]
  | case11 c rest _ _ _ _ _ _ mark _ ih => exact List.forall_mem_cons.2 ⟨trivial, ih⟩
  | case12 => simp [Token.IsReadable]

end SchemaLoom.Sdl
