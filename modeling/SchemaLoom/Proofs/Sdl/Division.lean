/-
How a text divides, piece by piece.

Dividing a text takes a piece off its front, again and again: a character that only separates, a
comment, or what is written of one token (`Piece`).  A piece is the same wherever it stands,
provided that what stands behind it does not go on with it.  So a text is followed through its
pieces, and what is put behind it is told apart from it (`Divides`).

The exception is a comment without the end of its line: it goes on with all that is put behind it
(`EndsInComment`).  No other text does, by `divides_of_lex`, and so a template that wraps a text
in others fails to tell them apart for this one reason.

What a piece may be followed by is its `stops`.  A name must not be followed by what continues a
name, nor a number by what continues a number, and nothing quoted may follow an empty quotation;
for a mark the condition is `True`.
-/
import SchemaLoom.Proofs.Sdl.Readable

namespace SchemaLoom.Sdl

variable {cs rest : List Char} {t : Token}

/-! ### Escapes

An escape is told by its own characters, and by their number where it ends with no mark.
-/

/-- The digits of a unit are read whatever stands behind them. -/
theorem exists_digits_of_hexUnit? {unit : Nat} (h : hexUnit? cs = some unit) :
    ∃ a b c d tail, cs = a :: b :: c :: d :: tail ∧ a ≠ '\x7b' ∧
      ∀ after, hexUnit? (a :: b :: c :: d :: after) = some unit := by
  unfold hexUnit? at h
  split at h
  next a b c d tail =>
    refine ⟨a, b, c, d, tail, rfl, ?_, fun after => h⟩
    rintro rfl
    have hnone : Text.hexValue? '\x7b' = none := by decide
    rw [hnone] at h
    cases h
  · cases h

theorem exists_taken_of_fixedEscape {c : Char} {n : Nat} (h : fixedEscape cs = .ok (c, n)) :
    ∃ a taken rest, cs = a :: taken ++ rest ∧ a ≠ '\x7b' ∧ taken.length + 2 = n ∧
      ∀ after, fixedEscape (a :: taken ++ after) = .ok (c, n) := by
  unfold fixedEscape at h
  dsimp only at h
  split at h
  · cases h
  next unit hunit =>
    obtain ⟨a, b, d, e, tail, rfl, hbrace, hagain⟩ := exists_digits_of_hexUnit? hunit
    split at h
    next char hscalar =>
      cases h
      refine ⟨a, [b, d, e], tail, rfl, hbrace, rfl, fun after => ?_⟩
      show fixedEscape (a :: b :: d :: e :: after) = _
      rw [fixedEscape, hagain]
      dsimp only
      rw [hscalar]
    next hscalar =>
      split at h
      next hhigh =>
        split at h
        next low hlow =>
          obtain ⟨rfl, rfl⟩ := Prod.mk.inj (Except.ok.inj h)
          rw [show (a :: b :: d :: e :: tail).drop 4 = tail from rfl, trailingUnit?.eq_def] at hlow
          split at hlow
          next behind =>
            obtain ⟨hsecond, hrange⟩ := Option.filter_eq_some_iff.1 hlow
            obtain ⟨a', b', d', e', tail', rfl, -, hagain'⟩ := exists_digits_of_hexUnit? hsecond
            refine ⟨a, [b, d, e, '\\', 'u', a', b', d', e'], tail', rfl, hbrace, rfl,
              fun after => ?_⟩
            have htrailing :
                trailingUnit? ('\\' :: 'u' :: a' :: b' :: d' :: e' :: after) = some low := by
              rw [trailingUnit?, hagain', Option.filter_eq_some_iff]
              exact ⟨rfl, hrange⟩
            show fixedEscape (a :: b :: d :: e :: '\\' :: 'u' :: a' :: b' :: d' :: e' :: after) = _
            rw [fixedEscape, hagain]
            dsimp only
            rw [hscalar, if_pos hhigh,
              show (a :: b :: d :: e :: '\\' :: 'u' :: a' :: b' :: d' :: e' ::
              after).drop 4 = '\\' :: 'u' :: a' :: b' :: d' :: e' :: after from rfl, htrailing]
          · cases hlow
        · cases h
      · cases h

theorem exists_taken_of_bracedEscape {point : Nat} {seen : List Char} {room : Nat} {c : Char}
    {n : Nat}
    (h : bracedEscape point seen room cs = .ok (c, n)) :
    ∃ taken rest, cs = taken ++ rest ∧ seen.length + taken.length + 2 = n ∧
      ∀ after, bracedEscape point seen room (taken ++ after) = .ok (c, n) := by
  induction room generalizing point seen cs with
  | zero =>
    rw [bracedEscape.eq_def] at h
    cases h
  | succ room ih =>
    cases cs with
    | nil =>
      rw [bracedEscape.eq_def] at h
      cases h
    | cons d tail =>
      rw [bracedEscape] at h
      by_cases hclosing : d = '\x7d'
      · subst hclosing
        rw [if_pos rfl] at h
        cases hscalar : scalar? point with
        | none =>
          rw [hscalar] at h
          cases h
        | some char =>
          rw [hscalar] at h
          dsimp only at h
          split at h
          · cases h
          next hseen =>
            cases h
            refine ⟨['\x7d'], tail, rfl, rfl, fun after => ?_⟩
            rw [List.singleton_append, bracedEscape, if_pos rfl, hscalar]
            dsimp only
            rw [if_neg hseen]
      · rw [if_neg hclosing] at h
        cases hvalue : Text.hexValue? d with
        | none =>
          rw [hvalue] at h
          cases h
        | some value =>
          rw [hvalue] at h
          obtain ⟨taken, rest, rfl, hlength, hagain⟩ := ih h
          refine ⟨d :: taken, rest, rfl, ?_, fun after => ?_⟩
          · simp only [List.length_cons] at hlength ⊢
            omega
          · rw [List.cons_append, bracedEscape, if_neg hclosing, hvalue]
            exact hagain after

theorem readEscape_fixed {a : Char} (h : a ≠ '\x7b') (cs : List Char) :
    readEscape ('u' :: a :: cs) = fixedEscape (a :: cs) := by
  unfold readEscape
  split
  next hsame =>
    cases hsame
    exact absurd rfl h
  next hsame =>
    cases hsame
    rfl
  next hother hsame =>
    cases hsame
    exact (hother rfl).elim
  next hsame => cases hsame

/-- **An escape is read whatever stands behind it.** -/
theorem exists_taken_of_readEscape {c : Char} {n : Nat} (h : readEscape cs = .ok (c, n)) :
    ∃ taken rest, cs = taken ++ rest ∧ taken.length = n ∧
      ∀ after, readEscape (taken ++ after) = .ok (c, n) := by
  unfold readEscape at h
  split at h
  next tail =>
    obtain ⟨taken, rest, rfl, hlength, hagain⟩ := exists_taken_of_bracedEscape h
    refine ⟨'u' :: '\x7b' :: taken, rest, rfl, ?_, fun after => hagain after⟩
    simp only [List.length_nil, List.length_cons] at hlength ⊢
    omega
  next tail _ =>
    obtain ⟨a, taken, rest, rfl, hbrace, hlength, hagain⟩ := exists_taken_of_fixedEscape h
    refine ⟨'u' :: a :: taken, rest, rfl, by simpa using hlength, fun after => ?_⟩
    rw [← hagain after]
    exact readEscape_fixed hbrace _
  next d tail hbraced hfixed =>
    cases hletter : letterEscape? d with
    | none =>
      rw [hletter] at h
      cases h
    | some char =>
      rw [hletter] at h
      cases h
      exact ⟨[d], tail, rfl, rfl, fun after => readEscape_letter hletter after⟩
  · cases h

/-! ### Quoted texts -/

/-- **A text up to its quotation mark is read whatever stands behind the mark.** -/
theorem exists_taken_of_readString {text : List Char} (h : readString cs = .ok (text, rest)) :
    ∃ taken, cs = taken ++ '"' :: rest ∧
      ∀ after, readString (taken ++ '"' :: after) = .ok (text, after) := by
  fun_induction readString cs generalizing text rest with
  | case1 => cases h
  | case2 tail =>
    cases h
    exact ⟨[], rfl, fun after => by rw [List.nil_append, readString]⟩
  | case3 => cases h
  | case4 => cases h
  | case5 tail char n hescape inner behind hinner ih =>
    cases h
    obtain ⟨taken, htaken, hagain⟩ := ih hinner
    obtain ⟨escape, others, rfl, rfl, hescaped⟩ := exists_taken_of_readEscape hescape
    rw [List.drop_left] at htaken
    subst htaken
    refine ⟨'\\' :: (escape ++ taken), by simp, fun after => ?_⟩
    rw [List.cons_append, List.append_assoc, readString_escape (hescaped _), List.drop_left,
      hagain after]
    rfl
  | case6 => cases h
  | case7 => cases h
  | case8 c tail hquote hslash hline inner behind hinner ih =>
    cases h
    obtain ⟨taken, rfl, hagain⟩ := ih hinner
    refine ⟨c :: taken, rfl, fun after => ?_⟩
    rw [List.cons_append, readString_plain hquote hslash (by simpa using hline), hagain after]
    rfl

/-- The first characters up to three closing marks stay the same whatever stands behind the
marks. -/
theorem starts_again {taken more : List Char} (front : List Char) (hshort : front.length ≤ 3)
    (after : List Char) (h : taken ++ '"' :: '"' :: '"' :: rest = front ++ more) :
    ∃ others, taken ++ '"' :: '"' :: '"' :: after = front ++ others := by
  have hwhole : front <+: (taken ++ ['"', '"', '"']) ++ rest := ⟨more, by simpa using h.symm⟩
  have hfront : front <+: taken ++ ['"', '"', '"'] := by
    refine List.prefix_of_prefix_length_le hwhole (List.prefix_append _ rest) ?_
    simp only [List.length_append, List.length_cons, List.length_nil]
    omega
  obtain ⟨others, hothers⟩ := hfront
  exact ⟨others ++ after, by rw [← List.append_assoc, hothers]; simp⟩

/-- **A block up to its quotation marks is read whatever stands behind them.** -/
theorem exists_taken_of_readBlock {line : List Char} {lines : List (List Char)}
    (h : readBlock line cs = .ok (lines, rest)) :
    ∃ taken, cs = taken ++ '"' :: '"' :: '"' :: rest ∧
      ∀ after, readBlock line (taken ++ '"' :: '"' :: '"' :: after) = .ok (lines, after) := by
  fun_induction readBlock line cs generalizing lines rest with
  | case1 line tail =>
    cases h
    exact ⟨[], rfl, fun after => by rw [List.nil_append, readBlock]⟩
  | case2 line tail ih =>
    obtain ⟨taken, rfl, hagain⟩ := ih h
    refine ⟨'\\' :: '"' :: '"' :: '"' :: taken, rfl, fun after => ?_⟩
    rw [List.cons_append, List.cons_append, List.cons_append, List.cons_append, readBlock,
      hagain after]
  | case3 line tail ih =>
    obtain ⟨r, hread, hsame⟩ := Outcome.of_map_eq_ok h
    cases hsame
    obtain ⟨taken, rfl, hagain⟩ := ih hread
    refine ⟨'\r' :: '\n' :: taken, rfl, fun after => ?_⟩
    rw [List.cons_append, List.cons_append, readBlock, hagain after]
    rfl
  | case4 line c tail hclosing hescaped hbreak hline ih =>
    obtain ⟨r, hread, hsame⟩ := Outcome.of_map_eq_ok h
    cases hsame
    obtain ⟨taken, rfl, hagain⟩ := ih hread
    refine ⟨c :: taken, rfl, fun after => ?_⟩
    rw [List.cons_append, readBlock]
    · rw [if_pos hline, hagain after]
      rfl
    · intro others hquote hsame
      -- The three other readings of the character would show in the same place before.
      obtain ⟨_, hbefore⟩ := starts_again ['"', '"'] (by decide) r.2 hsame
      exact hclosing _ hquote hbefore
    · intro others hslash hsame
      obtain ⟨_, hbefore⟩ := starts_again ['"', '"', '"'] (by decide) r.2 hsame
      exact hescaped _ hslash hbefore
    · intro others hreturn hsame
      obtain ⟨_, hbefore⟩ := starts_again ['\n'] (by decide) r.2 hsame
      exact hbreak _ hreturn hbefore
  | case5 line c tail hclosing hescaped hbreak hline ih =>
    obtain ⟨taken, rfl, hagain⟩ := ih h
    refine ⟨c :: taken, rfl, fun after => ?_⟩
    rw [List.cons_append, readBlock]
    · rw [if_neg hline, hagain after]
    · intro others hquote hsame
      obtain ⟨_, hbefore⟩ := starts_again ['"', '"'] (by decide) rest hsame
      exact hclosing _ hquote hbefore
    · intro others hslash hsame
      obtain ⟨_, hbefore⟩ := starts_again ['"', '"', '"'] (by decide) rest hsame
      exact hescaped _ hslash hbefore
    · intro others hreturn hsame
      obtain ⟨_, hbefore⟩ := starts_again ['\n'] (by decide) rest hsame
      exact hbreak _ hreturn hbefore
  | case6 => cases h

/-- **A quoted text is read whatever stands behind it, except that nothing quoted may follow an
empty one.** -/
theorem exists_taken_of_readQuoted (h : readQuoted cs = .ok (t, rest)) :
    ∃ taken, ∃ stops : Char → Prop, cs = taken ++ '"' :: rest ∧ t.value?.isSome ∧
      (∀ c, c ≠ '"' → stops c) ∧ (∀ c ∈ rest.head?, stops c) ∧
      ∀ after, (∀ c ∈ after.head?, stops c) →
        readQuoted (taken ++ '"' :: after) = .ok (t, after) := by
  unfold readQuoted at h
  split at h
  next tail =>
    obtain ⟨r, hread, hsame⟩ := Outcome.of_map_eq_ok h
    cases hsame
    obtain ⟨taken, rfl, hagain⟩ := exists_taken_of_readBlock hread
    refine ⟨'"' :: '"' :: (taken ++ ['"', '"']), fun _ => True, by simp, rfl, fun _ _ => trivial,
      fun _ _ => trivial, fun after _ => ?_⟩
    have hshape : '"' :: '"' :: (taken ++ ['"', '"']) ++ '"' :: after
        = '"' :: '"' :: (taken ++ '"' :: '"' :: '"' :: after) := by simp
    rw [hshape, readQuoted, hagain after]
    rfl
  next hother =>
    obtain ⟨r, hread, hsame⟩ := Outcome.of_map_eq_ok h
    cases hsame
    obtain ⟨taken, rfl, hagain⟩ := exists_taken_of_readString hread
    -- Only an empty text begins with a mark, and then what follows it must not be one.
    refine ⟨taken, fun c => taken = [] →
      c ≠ '"', rfl, rfl, fun _ hc _ => hc, ?_, fun after hafter => ?_⟩
    · rintro c hc rfl rfl
      cases htail : r.2 with
      | nil =>
        rw [htail] at hc
        cases hc
      | cons d tail =>
        rw [htail] at hc
        cases hc
        exact hother tail (by rw [htail]; rfl)
    · unfold readQuoted
      split
      next more hsame =>
        cases taken with
        | nil =>
          rw [List.nil_append, List.cons.injEq] at hsame
          exact absurd rfl (hafter '"' (by rw [hsame.2]; rfl) rfl)
        | cons c others =>
          rw [List.cons_append, List.cons.injEq] at hsame
          obtain ⟨rfl, hsame⟩ := hsame
          cases others with
          | nil => exact absurd rfl (hother r.2)
          | cons d others =>
            rw [List.cons_append, List.cons.injEq] at hsame
            obtain ⟨rfl, -⟩ := hsame
            exact absurd rfl (hother (others ++ '"' :: r.2))
      · rw [hagain after]
        rfl

/-! ### Pieces

The tokens of a text are found by recursion on its characters, several at a time.  `exists_piece`
says what one step takes, and the induction is on the length of what is left.
-/

/-- What is written of one token: it divides off in front of everything that does not go on with
it. -/
structure IsToken (cs : List Char) (t : Token) (stops : Char → Prop) : Prop where
  nonempty : cs ≠ []
  last : cs.getLast? ≠ some ' '
  mark : ∀ m, t = .punctuator m → cs = m.text.toList
  notEnd : t ≠ .eof
  detached : ∀ c, isNameContinue c = false ∧ c ≠ '.' ∧ c ≠ '"' → stops c
  lex : ∀ rest, (∀ c ∈ rest.head?, stops c) → lex (cs ++ rest) = t :: lex rest

/-- A piece of a text, the tokens that it holds, and what may stand behind it. -/
inductive Piece : List Char → List Token → (Char → Prop) → Prop
  | blank {c : Char} (h : isIgnored c = true) : Piece [c] [] fun _ => True
  /-- A comment goes on to the end of its line. -/
  | comment {body : List Char} (h : ∀ c ∈ body, isLineBreak c = false) :
      Piece ('#' :: body) [] fun c => isLineBreak c = true
  | token {cs : List Char} {t : Token} {stops : Char → Prop} (h : IsToken cs t stops) :
      Piece cs [t] stops

theorem lex_comment {body : List Char} (hbody : ∀ c ∈ body, isLineBreak c = false)
    (hrest : ∀ c ∈ rest.head?, isLineBreak c = true) : lex ('#' :: body ++ rest) = lex rest := by
  have hdrop : (body ++ rest).dropWhile (!isLineBreak ·) = rest := by
    rw [List.dropWhile_append_of_pos (fun c hc => by simp [hbody c hc])]
    cases rest with
    | nil => rfl
    | cons c rest => simp [hrest c rfl]
  rw [List.cons_append, lex.eq_def]
  simp only [show isIgnored '#' = false by decide, Bool.false_eq_true, ↓reduceIte, hdrop]

/-- A comment at the end of a text. -/
theorem lex_openComment {body : List Char} (hbody : ∀ c ∈ body, isLineBreak c = false) :
    lex ('#' :: body) = [.eof] := by
  have hcomment : lex ('#' :: body ++ []) = lex [] := lex_comment hbody fun _ h => nomatch h
  rwa [List.append_nil, lex_nil] at hcomment

theorem Piece.lex {p : List Char} {ts : List Token} {stops : Char → Prop} (h : Piece p ts stops)
    (hrest : ∀ c ∈ rest.head?, stops c) : lex (p ++ rest) = ts ++ lex rest := by
  cases h with
  | blank hc => exact lex_ignored hc rest
  | comment hbody => exact lex_comment hbody hrest
  | token htoken => exact htoken.lex rest hrest

theorem Piece.ne_nil {p : List Char} {ts : List Token} {stops : Char → Prop}
    (h : Piece p ts stops) :
    p ≠ [] := by
  cases h with
  | blank | comment => exact List.cons_ne_nil _ _
  | token htoken => exact htoken.nonempty

theorem Piece.length_lt {p : List Char} {ts : List Token} {stops : Char → Prop}
    (h : Piece p ts stops) (rest : List Char) : rest.length < (p ++ rest).length := by
  have := List.length_pos_iff.2 h.ne_nil
  rw [List.length_append]
  omega

theorem isToken_name {c : Char} (hc : isNameStart c = true) (tail : List Char) :
    IsToken (c :: tail.takeWhile isNameContinue)
      (.name (String.ofList (c :: tail.takeWhile isNameContinue))) fun c => isNameContinue c =
        false := by
  have hname := isName_takeWhile hc tail
  refine ⟨List.cons_ne_nil _ _, fun hlast => ?_, nofun, nofun, fun _ h => h.1, fun rest hrest => ?_⟩
  · have hmem := List.mem_of_getLast? hlast
    have hcontinues := continuesName_of_isName hname ' ' (by rwa [String.toList_ofList])
    exact absurd hcontinues (by decide)
  · have hlex := lex_name hname hrest
    rwa [String.toList_ofList] at hlex

theorem isToken_mark {c : Char} {m : Punctuator} (hc : Punctuator.ofChar? c = some m) :
    IsToken [c] (.punctuator m) fun _ => True := by
  have htext : [c] = m.text.toList ∧ c ≠ ' ' := by
    unfold Punctuator.ofChar? at hc
    split at hc <;> cases hc <;> decide
  refine ⟨List.cons_ne_nil _ _, ?_, ?_, nofun, fun _ _ => trivial, fun rest _ => lex_mark hc rest⟩
  · simpa using htext.2
  · rintro _ ⟨⟩
    exact htext.1

theorem isToken_spread : IsToken ['.', '.', '.'] (.punctuator .spread) fun _ => True := by
  refine ⟨List.cons_ne_nil _ _, by decide, ?_, nofun, fun _ _ => trivial, fun rest _ => ?_⟩
  · rintro _ ⟨⟩
    decide
  · show Sdl.lex ('.' :: '.' :: '.' :: rest) = _
    rw [Sdl.lex.eq_def]
    rfl

/-- A quoted text is a token, with what it needs of what stands behind it. -/
theorem exists_token_of_readQuoted {cs after : List Char} {t : Token}
    (hread : readQuoted cs = .ok (t, after)) : ∃ taken, ∃ stops : Char → Prop,
      '"' :: cs = taken ++ after ∧ IsToken taken t stops ∧ ∀ c ∈ after.head?, stops c := by
  obtain ⟨taken, stops, rfl, htext, hdetached, hafter, hagain⟩ := exists_taken_of_readQuoted hread
  refine ⟨'"' :: taken ++ ['"'], stops, by simp, ⟨by simp, by rw [List.getLast?_concat]; decide,
    ?_, ?_, fun d hd => hdetached d hd.2.2, fun more hmore => ?_⟩, hafter⟩
  · rintro m rfl
    cases htext
  · rintro rfl
    cases htext
  · have hshape : '"' :: taken ++ ['"'] ++ more = '"' :: (taken ++ '"' :: more) := by simp
    rw [hshape]
    exact lex_quote (hagain more hmore)

/-- A number is a token in front of what ends it. -/
theorem exists_token_of_readNumber {cs after : List Char} {t : Token}
    (hread : readNumber cs = .ok (t, after)) : ∃ taken,
      cs = taken ++ after ∧ IsToken taken t EndsNumber ∧ ∀ c ∈ after.head?, EndsNumber c := by
  obtain ⟨written, hwritten, htoken, hsolid, hafter, hagain⟩ := exists_written_of_readNumber hread
  refine ⟨written, hwritten, ⟨?_, fun hlast => ?_, ?_, ?_, ?_, fun more hmore =>
    lex_number (hagain more hmore)⟩, hafter⟩
  · rintro rfl
    obtain ⟨_, _, hfirst, -⟩ := first_of_readNumber (hagain [] (by simp))
    cases hfirst
  · exact absurd (hsolid ' ' (List.mem_of_getLast? hlast)) (by decide)
  · intro m hmark
    rcases htoken with rfl | rfl <;> cases hmark
  · intro hend
    rcases htoken with rfl | rfl <;> cases hend
  · exact fun d hd => (detached_cons hd []).endsNumber d rfl

/-- **A text is empty, or a piece can be taken off its front (`Piece`), or it cannot be divided.**
-/
theorem exists_piece (cs : List Char) : cs = [] ∨ (∃ fault, lex cs = [.invalid fault]) ∨
    ∃ p ts stops rest, cs = p ++ rest ∧ Piece p ts stops ∧ ∀ c ∈ rest.head?, stops c := by
  have hnone : ∀ tail : List Char, ∀ c ∈ tail.head?, (fun _ : Char => True) c :=
    fun _ _ _ => trivial
  -- The cases are those of `lex`, in its order.
  rcases cs with _ | ⟨c, rest⟩
  · exact Or.inl rfl
  refine Or.inr ?_
  rw [lex.eq_def]
  dsimp only
  split
  next hignored => exact Or.inr ⟨[c], [], _, rest, rfl, .blank hignored, hnone rest⟩
  split
  next hhash =>
    subst hhash
    refine Or.inr ⟨'#' :: rest.takeWhile (!isLineBreak ·), [], _, rest.dropWhile (!isLineBreak ·),
      ?_, .comment ?_, ?_⟩
    · simp
    · intro d hd
      simpa using List.mem_takeWhile_imp hd
    · intro d hd
      have hfirst := List.head?_dropWhile_not (!isLineBreak ·) rest
      rw [Option.mem_def.1 hd] at hfirst
      simpa using hfirst
  split
  next hstart =>
    refine Or.inr ⟨_, _, _, rest.dropWhile isNameContinue, ?_, .token (isToken_name hstart rest),
      ?_⟩
    · simp
    · intro d hd
      have hfirst := List.head?_dropWhile_not isNameContinue rest
      rw [Option.mem_def.1 hd] at hfirst
      simpa using hfirst
  split
  next hquote =>
    subst hquote
    split
    next t after hread =>
      obtain ⟨taken, stops, hsplit, htoken, hafter⟩ := exists_token_of_readQuoted hread
      exact Or.inr ⟨taken, [t], stops, after, hsplit, .token htoken, hafter⟩
    next fault _ => exact Or.inl ⟨fault, rfl⟩
  split
  · split
    next t after hread =>
      obtain ⟨taken, hsplit, htoken, hafter⟩ := exists_token_of_readNumber hread
      exact Or.inr ⟨taken, [t], EndsNumber, after, hsplit, .token htoken, hafter⟩
    next fault _ => exact Or.inl ⟨fault, rfl⟩
  split
  next hpoint =>
    subst hpoint
    split
    next tail => exact Or.inr ⟨['.', '.', '.'], _, _, tail, rfl, .token isToken_spread, hnone tail⟩
    · exact Or.inl ⟨_, rfl⟩
  split
  next m hmark => exact Or.inr ⟨[c], _, _, rest, rfl, .token (isToken_mark hmark), hnone rest⟩
  · exact Or.inl ⟨_, rfl⟩

theorem ne_nil_of_lex (cs : List Char) : lex cs ≠ [] := by
  intro hnone
  induction hlength : cs.length using Nat.strong_induction_on generalizing cs with
  | _ n ih =>
    rcases exists_piece cs with rfl | ⟨fault, hfault⟩ | ⟨p, ts, stops, rest, rfl, hpiece, hrest⟩
    · rw [lex_nil] at hnone
      cases hnone
    · rw [hfault] at hnone
      cases hnone
    · rw [hpiece.lex hrest, List.append_eq_nil_iff] at hnone
      exact ih rest.length (hlength ▸ hpiece.length_lt rest) rest hnone.2 rfl

/-- A text that begins with its end has no tokens. -/
theorem lex_eq_of_eof {ts : List Token} (h : lex cs = .eof :: ts) : ts = [] := by
  induction hlength : cs.length using Nat.strong_induction_on generalizing cs with
  | _ n ih =>
    rcases exists_piece cs with rfl | ⟨fault, hfault⟩ | ⟨p, us, stops, rest, rfl, hpiece, hrest⟩
    · rw [lex_nil] at h
      exact (List.cons.inj h).2.symm
    · rw [hfault] at h
      cases h
    · rw [hpiece.lex hrest] at h
      have hshorter := hlength ▸ hpiece.length_lt rest
      cases hpiece with
      | blank | comment => exact ih _ hshorter h rfl
      | token htoken => exact absurd (List.cons.inj h).1 htoken.notEnd

/-! ### Texts that are followed by others

By induction on the length of the text, with a piece taken off its front.  The last piece decides:
only a comment goes on with what is put behind it.
-/

/-- The text `cs` divides into `ts` in front of everything that does not go on with it. -/
def Divides (cs : List Char) (ts : List Token) : Prop :=
  ∀ rest, Detached rest → lex (cs ++ rest) = ts ++ lex rest

theorem divides_nil : Divides [] [] := fun _ _ => rfl

theorem Divides.lex_eq {ts : List Token} (h : Divides cs ts) : lex cs = ts ++ [.eof] := by
  have whole := h [] detached_nil
  rwa [List.append_nil, lex_nil] at whole

/-- What may stand behind a piece is not only the end of a line. -/
def MayEnd (stops : Char → Prop) : Prop := ∃ c, stops c ∧ isLineBreak c = false

/-- A piece in front of a text that divides. -/
theorem Piece.divides {p : List Char} {ts us : List Token} {stops : Char → Prop}
    (h : Piece p ts stops)
    (hrest : ∀ c ∈ rest.head?, stops c) (hdivides : Divides rest us)
    (hend : rest = [] → MayEnd stops) : Divides (p ++ rest) (ts ++ us) := by
  intro after hafter
  rw [List.append_assoc, h.lex, hdivides after hafter, List.append_assoc]
  cases rest with
  | cons c rest => exact hrest
  | nil =>
    cases h with
    | blank => exact fun _ _ => trivial
    | comment =>
      obtain ⟨c, hbreak, hnone⟩ := hend rfl
      rw [hnone] at hbreak
      cases hbreak
    | token htoken => exact fun c hc => htoken.detached c (hafter c hc)

/-- The text `cs` ends in a comment, which goes on with what is put behind it up to the end of the
line. -/
def EndsInComment (cs : List Char) : Prop :=
  ∃ front body ts, cs = front ++ '#' :: body ∧ (∀ c ∈ body, isLineBreak c = false) ∧
    lex front = ts ++ [.eof]

/-- A text behind a piece ends in a comment if it does by itself. -/
theorem EndsInComment.behind {p : List Char} {ts : List Token} {stops : Char → Prop}
    (h : EndsInComment rest) (hpiece : Piece p ts stops) (hrest : ∀ c ∈ rest.head?, stops c) :
    EndsInComment (p ++ rest) := by
  obtain ⟨front, body, us, rfl, hbody, hfront⟩ := h
  refine ⟨p ++ front, body, ts ++ us, by simp, hbody, ?_⟩
  rw [hpiece.lex, hfront, List.append_assoc]
  · cases front with
    | nil => exact fun _ h => nomatch h
    | cons c front => exact hrest

/-- A piece is a comment, or it may end where no line does. -/
theorem Piece.mayEnd {p : List Char} {ts : List Token} {stops : Char → Prop} (h : Piece p ts stops)
    (hopen : ¬ EndsInComment p) : MayEnd stops := by
  cases h with
  | blank => exact ⟨' ', trivial, by decide⟩
  | @comment body hbody =>
    exact absurd ⟨[], body, [], rfl, hbody, lex_nil⟩ hopen
  | token htoken => exact ⟨' ', htoken.detached ' ' (by decide), by decide⟩

/-- What is behind some tokens goes up to the end of the text. -/
theorem exists_behind {us vs ts : List Token} (hsome : vs ≠ []) (h : us ++ vs = ts ++ [.eof]) :
    ∃ ws, ts = us ++ ws ∧ vs = ws ++ [.eof] := by
  rw [← List.dropLast_concat_getLast hsome, ← List.append_assoc] at h
  obtain ⟨hfront, hlast⟩ := List.append_inj' h rfl
  refine ⟨vs.dropLast, hfront.symm, ?_⟩
  rw [← hlast, List.dropLast_concat_getLast hsome]

/-- **A text that can be divided ends in a comment (`EndsInComment`), or it divides in front of
other texts (`Divides`).** -/
theorem divides_of_lex {ts : List Token} (h : lex cs = ts ++ [.eof]) (hopen : ¬ EndsInComment cs) :
    Divides cs ts := by
  induction hlength : cs.length using Nat.strong_induction_on generalizing cs ts with
  | _ n ih =>
    rcases exists_piece cs with rfl | ⟨fault, hfault⟩ | ⟨p, us, stops, rest, rfl, hpiece, hrest⟩
    · rw [lex_nil] at h
      rw [List.self_eq_append_left.1 h]
      exact divides_nil
    · rw [hfault] at h
      have hlast := congrArg List.getLast? h
      rw [List.getLast?_concat] at hlast
      cases hlast
    · rw [hpiece.lex hrest] at h
      obtain ⟨vs, rfl, hbehind⟩ := exists_behind (ne_nil_of_lex rest) h
      refine hpiece.divides hrest (ih _ (hlength ▸ hpiece.length_lt rest) hbehind (fun hrestopen =>
        hopen (hrestopen.behind hpiece hrest)) rfl) ?_
      rintro rfl
      rw [List.append_nil] at hopen
      exact hpiece.mayEnd hopen

/-- **What is put behind a text that ends in a comment is lost, up to the end of the line.** -/
theorem EndsInComment.lex_append (h : EndsInComment cs) {more : List Char}
    (hmore : ∀ c ∈ more, isLineBreak c = false) : lex (cs ++ more) = lex cs := by
  induction hlength : cs.length using Nat.strong_induction_on generalizing cs more with
  | _ n ih =>
    obtain ⟨front, body, ts, rfl, hbody, hfront⟩ := h
    have hlost : ∀ line : List Char, (∀ c ∈ line, isLineBreak c = false) →
        lex (front ++ '#' :: line) = lex front := by
      intro line hline
      by_cases hopen : EndsInComment front
      · refine ih _ ?_ hopen (List.forall_mem_cons.2 ⟨by decide, hline⟩) rfl
        rw [← hlength, List.length_append, List.length_cons]
        omega
      · rw [divides_of_lex hfront hopen _ (detached_cons (by decide) _), lex_openComment hline,
          hfront]
    rw [List.append_assoc, List.cons_append,
      hlost _ (by simpa [or_imp, forall_and] using ⟨hbody, hmore⟩), hlost body hbody]

/-- **A text that divides up to a mark divides in front of the mark and behind it.** -/
theorem exists_split_of_lex {ts us : List Token} {m : Punctuator} {c : Char}
    (hmark : Punctuator.ofChar? c = some m) (h : lex cs = ts ++ .punctuator m :: us) :
    ∃ front behind, cs = front ++ c :: behind ∧ Divides front ts ∧ lex behind = us := by
  have htext : m.text.toList = [c] ∧ isLineBreak c = false := by
    unfold Punctuator.ofChar? at hmark
    split at hmark <;> cases hmark <;> decide
  induction hlength : cs.length using Nat.strong_induction_on generalizing cs ts with
  | _ n ih =>
    -- A text of one token that is not the mark is none of these.
    have halone : ∀ t, lex cs = [t] → t ≠ .punctuator m → False := by
      intro t ht hother
      rw [ht] at h
      cases ts with
      | nil => exact hother (List.cons.inj h).1
      | cons v ts => cases ts <;> cases h
    rcases exists_piece cs with rfl | ⟨fault, hfault⟩ | ⟨p, vs, stops, rest, rfl, hpiece, hrest⟩
    · exact (halone _ lex_nil nofun).elim
    · exact (halone _ hfault nofun).elim
    · have hshorter := hlength ▸ hpiece.length_lt rest
      have hgo : ∀ ws, ts = vs ++ ws → lex rest = ws ++ .punctuator m :: us →
          ∃ front behind, p ++ rest = front ++ c :: behind ∧ Divides front ts ∧
            lex behind = us := by
        rintro ws rfl hws
        obtain ⟨front, behind, rfl, hfront, hbehind⟩ := ih _ hshorter hws rfl
        refine ⟨p ++ front, behind, by simp, hpiece.divides ?_ hfront ?_, hbehind⟩
        · cases front with
          | nil => exact fun _ h => nomatch h
          | cons d front => exact hrest
        · rintro rfl
          exact ⟨c, hrest c rfl, htext.2⟩
      rw [hpiece.lex hrest] at h
      cases hpiece with
      | blank | comment => exact hgo ts rfl h
      | @token _ t _ htoken =>
        cases ts with
        | nil =>
          obtain ⟨rfl, hbehind⟩ := List.cons.inj h
          refine ⟨[], rest, ?_, divides_nil, hbehind⟩
          rw [htoken.mark m rfl, htext.1]
          rfl
        | cons v ts =>
          obtain ⟨rfl, hbehind⟩ := List.cons.inj h
          exact hgo ts rfl hbehind

/-- **A blank behind a text makes no difference.** -/
theorem lex_of_concat_blank {ts : List Token} (h : lex (cs ++ [' ']) = ts ++ [.eof]) :
    lex cs = ts ++ [.eof] := by
  induction hlength : cs.length using Nat.strong_induction_on generalizing cs ts with
  | _ n ih =>
    rcases exists_piece (cs ++ [' ']) with hnone | ⟨fault, hfault⟩ |
      ⟨p, us, stops, rest, hwhole, hpiece, hrest⟩
    · exact absurd hnone (by simp)
    · rw [hfault] at h
      have hlast := congrArg List.getLast? h
      rw [List.getLast?_concat] at hlast
      cases hlast
    · rw [hwhole, hpiece.lex hrest] at h
      rcases List.eq_nil_or_concat rest with rfl | ⟨others, last, rfl⟩
      · -- The blank ends the piece, which is just that or a comment.
        rw [List.append_nil] at hwhole
        have hlast : p.getLast? = some ' ' := by rw [← hwhole, List.getLast?_concat]
        cases hpiece with
        | blank =>
          have hnone : cs = [] := by
            simpa using congrArg List.length hwhole
          rwa [hnone]
        | @comment body hbody =>
          rcases List.eq_nil_or_concat body with rfl | ⟨line, last, rfl⟩
          · cases hlast
          · rw [List.concat_eq_append, ← List.cons_append] at hwhole
            obtain ⟨rfl, -⟩ := List.append_inj' hwhole rfl
            rw [List.concat_eq_append] at hbody
            rw [lex_openComment fun c hc => hbody c (List.mem_append_left _ hc)]
            rwa [List.nil_append, lex_nil] at h
        | token htoken => exact absurd hlast htoken.last
      · rw [List.concat_eq_append, ← List.append_assoc] at hwhole
        obtain ⟨rfl, hlast⟩ := List.append_inj' hwhole rfl
        cases hlast
        rw [List.concat_eq_append] at h
        obtain ⟨vs, rfl, hbehind⟩ := exists_behind (ne_nil_of_lex _) h
        rw [hpiece.lex, ih _ (hlength ▸ hpiece.length_lt others) hbehind rfl, List.append_assoc]
        cases others with
        | nil => exact fun _ h => nomatch h
        | cons c others => exact hrest

end SchemaLoom.Sdl
