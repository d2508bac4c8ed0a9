/-
Block text is read back.

Reading drops the indentation that all lines but the first share, and the blank lines at both
ends.  So of the lines that a block denotes neither the first nor the last is blank, and if there
are several, one of them starts in the first column (`IsDedented`).  When such lines are written,
that line tells how far they were moved, and reading undoes the move (`dedent_moved`).

What reads a block goes character by character and stops at a closing mark, which is escaped
where it stands in the text.  So a second part is about quotation marks: escaped text has no
closing mark in it (`not_startsClosed_escapeQuotes`), and lines are read back from their escaped
form (`readBlock_lines`).

A block with one line is closed behind it, and one with several on a line of its own, so that a
quotation mark or a backslash at the end does not meet the closing mark.
-/
import Mathlib.Data.List.TakeWhile
import SchemaLoom.Proofs.Lists
import SchemaLoom.Proofs.Sdl.Quoting

namespace SchemaLoom.Sdl

open Text

namespace BlockText

/-! ### Lines -/

variable {l : List Char} {lines : List (List Char)} {n : Nat}

/-- Lines that a block can denote. -/
structure IsDedented (lines : List (List Char)) : Prop where
  /-- No line goes on in the next one. -/
  unbroken : ∀ l ∈ lines, ∀ c ∈ l, isLineBreak c = false
  /-- The first line is not blank. -/
  first : ∀ l ∈ lines.head?, isEmptyLine l = false
  /-- The last line is not blank. -/
  last : ∀ l ∈ lines.getLast?, isEmptyLine l = false
  /-- Of several lines one starts in the first column. -/
  flush : 2 ≤ lines.length → ∃ l ∈ lines, isEmptyLine l = false ∧ leading l = 0

/-- The text of a block with some lines. -/
def ofLines (lines : List (List Char)) : String :=
  "\n".intercalate (lines.map String.ofList)

theorem toList_ofLines (lines : List (List Char)) :
    (ofLines lines).toList = ['\n'].intercalate lines := by
  rw [ofLines, String.toList_intercalate, List.map_map]
  have hsame : String.toList ∘ String.ofList = id := funext fun l => String.toList_ofList
  rw [hsame, List.map_id]
  rfl

theorem isEmptyLine_append (l m : List Char) :
    isEmptyLine (l ++ m) = (isEmptyLine l && isEmptyLine m) :=
  List.all_append

theorem isEmptyLine_spaces (n : Nat) : isEmptyLine (List.replicate n ' ') = true := by
  rw [isEmptyLine, List.all_eq_true]
  intro c hc
  rw [List.eq_of_mem_replicate hc]
  decide

theorem leading_spaces_append (n : Nat) (l : List Char) :
    leading (List.replicate n ' ' ++ l) = n + leading l := by
  have hspaces : ∀ c ∈ List.replicate n ' ', isIndentation c = true := by
    intro c hc
    rw [List.eq_of_mem_replicate hc]
    decide
  rw [leading, List.takeWhile_append_of_pos hspaces, List.length_append, List.length_replicate,
    leading]

/-- A line without its indentation starts in the first column. -/
theorem drop_leading (h : isEmptyLine l = false) :
    isEmptyLine (l.drop (leading l)) = false ∧ leading (l.drop (leading l)) = 0 := by
  have hdrop : l.drop (leading l) = l.dropWhile isIndentation := by
    have hall := List.takeWhile_append_dropWhile (p := isIndentation) (l := l)
    rw [← congrArg (List.drop (leading l)) hall]
    exact List.drop_left
  rw [hdrop]
  cases hrest : l.dropWhile isIndentation with
  | nil =>
    rw [List.dropWhile_eq_nil_iff] at hrest
    rw [isEmptyLine, List.all_eq_true.2 hrest] at h
    cases h
  | cons c cs =>
    have hfirst : isIndentation c = false := by
      have := List.head?_dropWhile_not isIndentation l
      rw [hrest] at this
      simpa using this
    exact ⟨by simp [isEmptyLine, hfirst], by simp [leading, hfirst]⟩

/-! ### Trimming -/

section Trim

variable {α : Type} {p : α → Bool}

/-- What a list is without members that pass a test at both ends. -/
theorem trimWhile_spec (p : α → Bool) (as : List α) : ∃ before after,
    as = before ++ trimWhile p as ++ after ∧ (∀ a ∈ before, p a = true) ∧
      (∀ a ∈ after, p a = true) ∧ (∀ a ∈ (trimWhile p as).head?, p a = false) ∧
        ∀ a ∈ (trimWhile p as).getLast?, p a = false := by
  have hback : (as.dropWhile p).reverse
      = (as.dropWhile p).reverse.takeWhile p ++ (as.dropWhile p).reverse.dropWhile p :=
    List.takeWhile_append_dropWhile.symm
  have hrest :
      as.dropWhile p = trimWhile p as ++ ((as.dropWhile p).reverse.takeWhile p).reverse := by
    rw [trimWhile, ← List.reverse_append, ← hback, List.reverse_reverse]
  refine ⟨as.takeWhile p, ((as.dropWhile p).reverse.takeWhile p).reverse, ?_, ?_, ?_, ?_, ?_⟩
  · rw [List.append_assoc, ← hrest, List.takeWhile_append_dropWhile]
  · exact fun a ha => List.mem_takeWhile_imp ha
  · exact fun a ha => List.mem_takeWhile_imp (List.mem_reverse.1 ha)
  · intro a ha
    have hhead : (as.dropWhile p).head? = some a := by
      rw [hrest, List.head?_append, ha]
      rfl
    have := List.head?_dropWhile_not p as
    rw [hhead] at this
    simpa using this
  · intro a ha
    rw [trimWhile, List.getLast?_reverse] at ha
    have := List.head?_dropWhile_not p (as.dropWhile p).reverse
    rw [ha] at this
    simpa using this

/-- What is between members that are dropped stays as it is. -/
theorem trimWhile_eq {before as after : List α} (hbefore : ∀ a ∈ before, p a = true)
    (hafter : ∀ a ∈ after, p a = true) (hhead : ∀ a ∈ as.head?, p a = false)
    (hlast : ∀ a ∈ as.getLast?, p a = false) : trimWhile p (before ++ as ++ after) = as := by
  have hstop : ∀ bs : List α, (∀ a ∈ bs.head?, p a = false) → bs.dropWhile p = bs := by
    intro bs h
    cases bs with
    | nil => rfl
    | cons b bs => simp [h b rfl]
  cases as with
  | nil =>
    have hall : (before ++ [] ++ after).dropWhile p = [] := by
      rw [List.dropWhile_eq_nil_iff]
      simp only [List.append_nil, List.mem_append]
      rintro a (ha | ha)
      · exact hbefore a ha
      · exact hafter a ha
    rw [trimWhile, hall]
    rfl
  | cons a as =>
    have hfront : ((a :: as) ++ after).dropWhile p = (a :: as) ++ after := hstop _ hhead
    rw [trimWhile, List.append_assoc, List.dropWhile_append_of_pos hbefore, hfront,
      List.reverse_append, List.dropWhile_append_of_pos (by simpa using hafter),
      hstop _ (by rwa [List.head?_reverse]), List.reverse_reverse]

end Trim

/-! ### Dedenting

Moving a block to the right adds the same spaces to every line that is not empty, and the common
indentation grows by as many.
-/

/-- Lines of which one tells how far all were moved lose just that. -/
theorem commonIndent_moved (hflush : ∃ l ∈ lines, isEmptyLine l = false ∧ leading l = 0) :
    commonIndent (lines.map (List.replicate n ' ' ++ ·) ++ [List.replicate n ' ']) = some n := by
  have hblank : ([List.replicate n ' '].filter (!isEmptyLine ·)) = [] := by
    simp [isEmptyLine_spaces]
  have hlines : (lines.map (List.replicate n ' ' ++ ·)).filter (!isEmptyLine ·)
      = (lines.filter (!isEmptyLine ·)).map (List.replicate n ' ' ++ ·) := by
    rw [List.filter_map]
    congr 2
    funext l
    simp [isEmptyLine_append, isEmptyLine_spaces]
  have hleading : leading ∘ (List.replicate n ' ' ++ ·) = fun l => n + leading l :=
    funext fun l => leading_spaces_append n l
  rw [commonIndent, List.filter_append, hblank, List.append_nil, hlines, List.map_map, hleading,
    List.min?_eq_some_iff]
  obtain ⟨l, hl, hsome, hzero⟩ := hflush
  refine ⟨List.mem_map.2 ⟨l, List.mem_filter.2 ⟨hl, by simp [hsome]⟩, by simp [hzero]⟩, ?_⟩
  intro k hk
  obtain ⟨m, -, rfl⟩ := List.mem_map.1 hk
  exact Nat.le_add_right n _

/-- **Lines that were moved behind an opening mark are dedented to themselves** (`IsDedented`). -/
theorem dedent_moved (h : IsDedented lines)
    (hflush : ∃ l ∈ lines, isEmptyLine l = false ∧ leading l = 0) :
    dedent ([] :: (lines.map (List.replicate n ' ' ++ ·) ++ [List.replicate n ' '])) = lines := by
  have hback : (lines.map (List.replicate n ' ' ++ ·) ++ [List.replicate n ' ']).map (List.drop n)
      = lines ++ [[]] := by
    have heach : List.drop n ∘ (List.replicate n ' ' ++ ·) = id := by
      funext l
      simp
    rw [List.map_append, List.map_map, heach, List.map_id]
    simp
  rw [dedent, commonIndent_moved hflush]
  simp only [hback]
  have hempty : ∀ l ∈ [([] : List Char)], isEmptyLine l = true := by
    intro l hl
    rw [List.mem_singleton.1 hl]
    rfl
  exact trimWhile_eq hempty hempty h.first h.last

/-- A line behind its opening mark is dedented to itself. -/
theorem dedent_line (hsome : isEmptyLine l = false) {after : List (List Char)}
    (hafter : ∀ m ∈ after, isEmptyLine m = true) : dedent (l :: after) = [l] := by
  have hnone : commonIndent after = none := by
    have hfilter : after.filter (!isEmptyLine ·) = [] := by
      rw [List.filter_eq_nil_iff]
      intro m hm
      simp [hafter m hm]
    rw [commonIndent, hfilter]
    rfl
  rw [dedent, hnone]
  show trimWhile isEmptyLine ([] ++ [l] ++ after) = [l]
  exact trimWhile_eq (fun _ h => nomatch h) hafter (by simpa using hsome) (by simpa using hsome)

/-- The lines behind the first, without the indentation that they share. -/
def outdent (rest : List (List Char)) : List (List Char) :=
  match commonIndent rest with
  | some n => rest.map (List.drop n)
  | none => rest

theorem dedent_cons (first : List Char) (rest : List (List Char)) :
    dedent (first :: rest) = trimWhile isEmptyLine (first :: outdent rest) := rfl

theorem subset_outdent {rest : List (List Char)} (hl : l ∈ outdent rest) :
    ∃ m ∈ rest, l ⊆ m := by
  unfold outdent at hl
  split at hl
  · obtain ⟨m, hm, rfl⟩ := List.mem_map.1 hl
    exact ⟨m, hm, List.drop_subset _ m⟩
  · exact ⟨l, hl, List.Subset.refl l⟩

/-- Without the indentation that they share, one of some lines starts in the first column. -/
theorem exists_flush {rest : List (List Char)}
    (hsome : ∃ l ∈ outdent rest, isEmptyLine l = false) :
    ∃ l ∈ outdent rest, isEmptyLine l = false ∧ leading l = 0 := by
  unfold outdent at hsome ⊢
  cases hindent : commonIndent rest with
  | none =>
    rw [hindent] at hsome
    obtain ⟨l, hl, hsome⟩ := hsome
    rw [commonIndent, List.min?_eq_none_iff, List.map_eq_nil_iff, List.filter_eq_nil_iff] at hindent
    exact absurd hsome (by simpa using hindent l hl)
  | some n =>
    have hleast := (List.min?_eq_some_iff.1 hindent).1
    obtain ⟨l, hl, rfl⟩ := List.mem_map.1 hleast
    obtain ⟨hl, hfull⟩ := List.mem_filter.1 hl
    exact ⟨_, List.mem_map.2 ⟨l, hl, rfl⟩, drop_leading (by simpa using hfull)⟩

/-- **What reading drops leaves lines that a block can denote**: `IsDedented` holds of whatever
`dedent` returns. -/
theorem isDedented_dedent (h : ∀ l ∈ lines, ∀ c ∈ l, isLineBreak c = false) :
    IsDedented (dedent lines) := by
  cases lines with
  | nil =>
    exact ⟨fun _ h => (nomatch h), fun _ h => (nomatch h), fun _ h => (nomatch h), by simp [dedent]⟩
  | cons first rest =>
    rw [dedent_cons]
    obtain ⟨before, after, hall, hbefore, hafter, hhead, hlast⟩ :=
      trimWhile_spec isEmptyLine (first :: outdent rest)
    refine ⟨fun l hl => ?_, hhead, hlast, fun hseveral => ?_⟩
    · have hthere : l ∈ first :: outdent rest := by
        rw [hall]
        simp [hl]
      rcases List.mem_cons.1 hthere with rfl | hthere
      · exact h l (by simp)
      · obtain ⟨m, hm, hsubset⟩ := subset_outdent hthere
        exact fun c hc => h m (by simp [hm]) c (hsubset hc)
    · obtain ⟨last, hmoved, hkept⟩ := exists_getLast hall hseveral
      obtain ⟨l, hl, hsome, hzero⟩ := exists_flush ⟨last, hmoved, hlast last hkept⟩
      refine ⟨l, ?_, hsome, hzero⟩
      have hthere : l ∈ first :: outdent rest := by simp [hl]
      rw [hall] at hthere
      simp only [List.mem_append] at hthere
      rcases hthere with (hl | hl) | hl
      · rw [hbefore l hl] at hsome
        cases hsome
      · exact hl
      · rw [hafter l hl] at hsome
        cases hsome

/-! ### Quotation marks

Three quotation marks in a row close a block.  Escaped text has none, and does not complete three
with what stands behind it (`StartsClosed`).
-/

/-- The text starts with the mark that closes a block. -/
def StartsClosed (cs : List Char) : Prop := ∃ rest, cs = '"' :: '"' :: '"' :: rest

theorem escapeQuotes_cons {c : Char} {cs : List Char} (h : ¬ StartsClosed (c :: cs)) :
    escapeQuotes (c :: cs) = c :: escapeQuotes cs := by
  rw [escapeQuotes]
  rintro rest rfl rfl
  exact h ⟨rest, rfl⟩

theorem escapeQuotes_eq_cons {cs rest : List Char} (h : escapeQuotes cs = '"' :: rest) :
    ∃ ds, cs = '"' :: ds ∧ rest = escapeQuotes ds := by
  unfold escapeQuotes at h
  split at h
  · cases h
  · cases h
    exact ⟨_, rfl, rfl⟩
  · cases h

/-- No text starts with a closing mark once its marks are escaped. -/
theorem not_startsClosed_escapeQuotes (cs : List Char) : ¬ StartsClosed (escapeQuotes cs) := by
  rintro ⟨rest, h⟩
  obtain ⟨ds, rfl, hsecond⟩ := escapeQuotes_eq_cons h
  obtain ⟨es, rfl, hthird⟩ := escapeQuotes_eq_cons hsecond.symm
  obtain ⟨fs, rfl, -⟩ := escapeQuotes_eq_cons hthird.symm
  cases h

theorem getLast?_escapeQuotes (cs : List Char) : (escapeQuotes cs).getLast? = cs.getLast? := by
  fun_induction escapeQuotes cs with
  | case1 rest ih => simp [List.getLast?_cons, ih]
  | case2 c rest _ ih => simp [List.getLast?_cons, ih]
  | case3 => rfl

theorem mem_escapeQuotes {c : Char} {cs : List Char} (h : c ∈ escapeQuotes cs) :
    c ∈ cs ∨ c = '\\' := by
  fun_induction escapeQuotes cs with
  | case1 rest ih =>
    simp only [List.mem_cons] at h ⊢
    tauto
  | case2 d rest _ ih =>
    simp only [List.mem_cons] at h ⊢
    tauto
  | case3 => cases h

/-- A text does not start with a closing mark because of what is behind it. -/
theorem not_startsClosed_append {cs tail : List Char} (hsome : cs ≠ []) (h : ¬ StartsClosed cs)
    (htail : tail.head? = some '"' → cs.getLast? ≠ some '"') : ¬ StartsClosed (cs ++ tail) := by
  rintro ⟨rest, hsame⟩
  match cs, hsome with
  | [a], _ =>
    obtain ⟨rfl, rfl⟩ := List.cons.inj hsame
    exact htail rfl rfl
  | [a, b], _ =>
    simp only [List.cons_append, List.nil_append, List.cons.injEq] at hsame
    obtain ⟨rfl, rfl, rfl⟩ := hsame
    exact htail rfl rfl
  | a :: b :: c :: ds, _ =>
    simp only [List.cons_append, List.cons.injEq] at hsame
    obtain ⟨rfl, rfl, rfl, -⟩ := hsame
    exact h ⟨ds, rfl⟩

theorem escapeQuotes_lines (l rest : List Char) :
    escapeQuotes (l ++ '\n' :: rest) = escapeQuotes l ++ '\n' :: escapeQuotes rest := by
  fun_induction escapeQuotes l with
  | case1 l ih =>
    rw [List.cons_append, List.cons_append, List.cons_append, escapeQuotes, ih]
    rfl
  | case2 c l hother ih =>
    have hstart : ¬ StartsClosed (c :: l) := by
      rintro ⟨after, hsame⟩
      obtain ⟨hc, hl⟩ := List.cons.inj hsame
      exact hother after hc hl
    have hwhole : ¬ StartsClosed (c :: (l ++ '\n' :: rest)) :=
      not_startsClosed_append (List.cons_ne_nil c l) hstart fun h => by cases h
    rw [List.cons_append, escapeQuotes_cons hwhole, ih, List.cons_append]
  | case3 => rw [List.nil_append, escapeQuotes_cons (by rintro ⟨_, h⟩; cases h)]; rfl

/-! ### Reading -/

theorem readBlock_plain {c : Char} {cs acc : List Char} (hclosed : ¬ StartsClosed (c :: cs))
    (hescape : ¬ (c = '\\' ∧ StartsClosed cs)) (hline : isLineBreak c = false) :
    readBlock acc (c :: cs) = readBlock (c :: acc) cs := by
  rw [readBlock]
  · rw [hline, if_neg Bool.false_ne_true]
  · rintro rest rfl rfl
    exact hclosed ⟨rest, rfl⟩
  · rintro rest rfl rfl
    exact hescape ⟨rfl, rest, rfl⟩
  · rintro rest rfl -
    cases hline

theorem readBlock_break (acc cs : List Char) :
    readBlock acc ('\n' :: cs) = (readBlock [] cs).map fun r => (acc.reverse :: r.1, r.2) := by
  rw [readBlock]
  · rfl
  · exact fun _ h => by cases h
  · exact fun _ h => by cases h
  · exact fun _ h => by cases h

theorem readBlock_spaces (n : Nat) (acc cs : List Char) :
    readBlock acc (List.replicate n ' ' ++ cs) = readBlock (List.replicate n ' ' ++ acc) cs := by
  induction n generalizing acc with
  | zero => rfl
  | succ n ih =>
    rw [List.replicate_succ, List.cons_append, readBlock_plain (by rintro ⟨_, h⟩; cases h)
      (fun h => by cases h.1) rfl, ih, List.cons_append, ← List.cons_append,
      ← List.replicate_succ, List.replicate_succ', List.append_assoc]
    rfl

/-- A line is read back from its escaped form. -/
theorem readBlock_escapeQuotes {tail : List Char} (hline : ∀ c ∈ l, isLineBreak c = false)
    (htail : tail.head? = some '"' → ∀ c ∈ l.getLast?, c ≠ '"' ∧ c ≠ '\\') (acc : List Char) :
    readBlock acc (escapeQuotes l ++ tail) = readBlock (l.reverse ++ acc) tail := by
  -- What may stand behind the characters is asked of the last one, so it is asked of fewer
  -- characters as well.
  have hbehind : ∀ {c : Char} {cs : List Char},
      (tail.head? = some '"' → ∀ d ∈ (c :: cs).getLast?, d ≠ '"' ∧ d ≠ '\\') →
      tail.head? = some '"' → ∀ d ∈ cs.getLast?, d ≠ '"' ∧ d ≠ '\\' := by
    intro c cs h hhead d hd
    refine h hhead d ?_
    rw [List.getLast?_cons, hd]
    rfl
  fun_induction escapeQuotes l generalizing acc with
  | case1 rest ih =>
    rw [List.cons_append, List.cons_append, List.cons_append, List.cons_append, readBlock,
      ih (fun c hc => hline c (by simp [hc])) (hbehind (hbehind (hbehind htail)))]
    simp
  | case2 c rest hother ih =>
    have hstart : ¬ StartsClosed (c :: rest) := by
      rintro ⟨after, hsame⟩
      obtain ⟨hc, hrest⟩ := List.cons.inj hsame
      exact hother after hc hrest
    -- Neither the character nor the backslash that may be there can be taken for three marks.
    have hclosed : ¬ StartsClosed (c :: (escapeQuotes rest ++ tail)) := by
      rw [← List.cons_append, ← escapeQuotes_cons hstart]
      refine not_startsClosed_append (by rw [escapeQuotes_cons hstart]; simp)
        (not_startsClosed_escapeQuotes _) fun hhead hlast => ?_
      rw [getLast?_escapeQuotes] at hlast
      exact (htail hhead '"' hlast).1 rfl
    have hescape : ¬ (c = '\\' ∧ StartsClosed (escapeQuotes rest ++ tail)) := by
      rintro ⟨rfl, hstarts⟩
      cases rest with
      | nil =>
        obtain ⟨after, hsame⟩ := hstarts
        have hhead : tail.head? = some '"' := by
          rw [show tail = '"' :: '"' :: '"' :: after from hsame]
          rfl
        exact (htail hhead '\\' rfl).2 rfl
      | cons d rest =>
        refine not_startsClosed_append (fun hnone => ?_)
          (not_startsClosed_escapeQuotes _) ?_ hstarts
        · have := getLast?_escapeQuotes (d :: rest)
          rw [hnone] at this
          simp [List.getLast?_cons] at this
        · intro hhead hlast
          rw [getLast?_escapeQuotes] at hlast
          exact (hbehind htail hhead '"' hlast).1 rfl
    rw [List.cons_append, readBlock_plain hclosed hescape (hline c (by simp)),
      ih (fun d hd => hline d (by simp [hd])) (hbehind htail)]
    simp
  | case3 => rfl

theorem shift_escapeQuotes (hline : ∀ c ∈ l, isLineBreak c = false) :
    shift n (escapeQuotes l) = escapeQuotes l := by
  refine shift_eq_self fun c hc => ?_
  rintro rfl
  rcases mem_escapeQuotes hc with hc | hc
  · exact absurd (hline '\n' hc) (by decide)
  · cases hc

/-- **Lines are read back from where `shift` moved them to.** -/
theorem readBlock_lines {ls more : List (List Char)} {tail rest : List Char}
    (hlines : ∀ m ∈ l :: ls, ∀ c ∈ m, isLineBreak c = false)
    (htail : tail.head? = some '"' →
      ∀ m ∈ (l :: ls).getLast?, ∀ c ∈ m.getLast?, c ≠ '"' ∧ c ≠ '\\')
    (hread : ∀ acc, readBlock acc tail = .ok (acc.reverse :: more, rest)) (acc : List Char) :
    readBlock acc (shift n (escapeQuotes (['\n'].intercalate (l :: ls))) ++ tail)
      = .ok ((acc.reverse ++ l) :: (ls.map (List.replicate n ' ' ++ ·) ++ more), rest) := by
  have hfirst : ∀ c ∈ l, isLineBreak c = false := hlines l (by simp)
  induction ls generalizing l acc with
  | nil =>
    rw [List.intercalate_singleton, shift_escapeQuotes hfirst,
      readBlock_escapeQuotes hfirst (fun hhead => htail hhead l rfl), hread]
    simp
  | cons m ls ih =>
    have hothers := ih (fun k hk => hlines k (by simp [hk]))
      (fun hhead k hk => htail hhead k (by rwa [List.getLast?_cons_cons]))
      (List.replicate n ' ') (hlines m (by simp))
    rw [List.intercalate_cons_cons, List.append_assoc, List.singleton_append, escapeQuotes_lines,
      shift_append, shift_escapeQuotes hfirst, shift_break, List.append_assoc,
      readBlock_escapeQuotes hfirst (fun hhead => by cases hhead), List.cons_append,
      readBlock_break, List.append_assoc, readBlock_spaces, List.append_nil, hothers]
    simp [Except.map]

/-- Reading stops at the closing mark. -/
theorem readBlock_close (acc rest : List Char) :
    readBlock acc ('"' :: '"' :: '"' :: rest) = .ok ([acc.reverse], rest) := by
  rw [readBlock]

/-- A closing mark on a line of its own leaves the spaces in front of it. -/
theorem readBlock_closeLine (n : Nat) (acc rest : List Char) :
    readBlock acc ('\n' :: (List.replicate n ' ' ++ '"' :: '"' :: '"' :: rest))
      = .ok ([acc.reverse, List.replicate n ' '], rest) := by
  rw [readBlock_break, readBlock_spaces, List.append_nil, readBlock_close]
  simp [Except.map]

/-! ### Writing -/

theorem hasSeveralLines_intercalate {ls : List (List Char)}
    (h : ∀ m ∈ l :: ls, ∀ c ∈ m, isLineBreak c = false) :
    hasSeveralLines (['\n'].intercalate (l :: ls)) = !ls.isEmpty := by
  cases ls with
  | nil =>
    rw [List.intercalate_singleton, hasSeveralLines, List.isEmpty_nil, Bool.not_true,
      Bool.eq_false_iff]
    intro hbreak
    exact absurd (h l (by simp) '\n' (by simpa using hbreak)) (by decide)
  | cons m ls =>
    rw [List.intercalate_cons_cons]
    simp [hasSeveralLines]

/-- The characters between the marks of a block. -/
def body (cs : List Char) : List Char :=
  (if opensLine cs then ['\n'] else []) ++ escapeQuotes cs ++ if spansLines cs then ['\n'] else []

theorem toList_render (value : String) :
    (render value).toList = ['"', '"', '"'] ++ body value.toList ++ ['"', '"', '"'] := by
  simp only [render, body, String.toList_append, String.toList_ofList]
  cases opensLine value.toList <;> cases spansLines value.toList <;> simp

/-- A single line is the whole text. -/
theorem eq_nil_of_hasSeveralLines {ls : List (List Char)} (h : IsDedented (l :: ls))
    (hone : hasSeveralLines (['\n'].intercalate (l :: ls)) = false) : ls = [] := by
  simpa [hasSeveralLines_intercalate h.unbroken] using hone

/-- Lines that begin behind the line of the opening mark have one in the first column. -/
theorem exists_flush_of_opensLine {ls : List (List Char)} (h : IsDedented (l :: ls))
    (hopens : opensLine (['\n'].intercalate (l :: ls)) = true) :
    ∃ m ∈ l :: ls, isEmptyLine m = false ∧ leading m = 0 := by
  cases ls with
  | cons m ls => exact h.flush (by simp)
  | nil =>
    have hseveral := hasSeveralLines_intercalate h.unbroken
    have hstart : (!(l.head?.any isIndentation)) = true := by
      rw [opensLine, hseveral, List.intercalate_singleton] at hopens
      simpa using (Bool.and_eq_true_iff.1 hopens).2
    refine ⟨l, List.mem_singleton_self l, h.first l rfl, ?_⟩
    cases l with
    | nil => rfl
    | cons c l => simpa [leading] using hstart

/-- The lines are read from a block whose closing mark has a line of its own. -/
theorem readBlock_spread {ls : List (List Char)} (h : IsDedented (l :: ls)) (n : Nat)
    (rest : List Char) (hspans : spansLines (['\n'].intercalate (l :: ls)) = true) : ∃ raw,
    readBlock [] (shift n (body (['\n'].intercalate (l :: ls))) ++ '"' :: '"' :: '"' :: rest)
        = .ok (raw, rest) ∧ dedent raw = l :: ls := by
  have hread := readBlock_lines (n := n) h.unbroken (fun hhead => by cases hhead)
    fun acc => readBlock_closeLine n acc rest
  unfold body
  rw [if_pos hspans]
  by_cases hopens : opensLine (['\n'].intercalate (l :: ls)) = true
  · -- One of the lines starts in the first column, so it tells how far all were moved.
    refine ⟨_, ?_, dedent_moved (n := n) h (exists_flush_of_opensLine h hopens)⟩
    rw [if_pos hopens]
    simp only [shift_append, shift_break, shift_nil, List.append_nil, List.append_assoc,
      List.cons_append, List.nil_append]
    rw [readBlock_break, readBlock_spaces, List.append_nil, hread]
    simp [Except.map]
  · -- There is a single line, behind the opening mark.
    have hnone : ls = [] := by
      refine eq_nil_of_hasSeveralLines h (Bool.eq_false_iff.2 fun hseveral => hopens ?_)
      rw [opensLine, hspans, hseveral]
      rfl
    subst hnone
    have hspaces : ∀ m ∈ [List.replicate n ' '], isEmptyLine m = true := by
      simp [isEmptyLine_spaces]
    refine ⟨_, ?_, dedent_line (h.first l rfl) hspaces⟩
    rw [if_neg hopens]
    simp only [shift_append, shift_break, shift_nil, List.append_nil, List.append_assoc,
      List.cons_append, List.nil_append]
    rw [hread]
    rfl

/-- The only line is read from a block that is closed behind it. -/
theorem readBlock_single {ls : List (List Char)} (h : IsDedented (l :: ls)) (n : Nat)
    (rest : List Char) (hspans : spansLines (['\n'].intercalate (l :: ls)) = false) : ∃ raw,
    readBlock [] (shift n (body (['\n'].intercalate (l :: ls))) ++ '"' :: '"' :: '"' :: rest)
        = .ok (raw, rest) ∧ dedent raw = l :: ls := by
  obtain ⟨hsingle, -, hquote, hslash⟩ : hasSeveralLines (['\n'].intercalate (l :: ls)) = false ∧
      (['\n'].intercalate (l :: ls)).length ≤ 70 ∧
      (['\n'].intercalate (l :: ls)).getLast? ≠ some '"' ∧
      (['\n'].intercalate (l :: ls)).getLast? ≠ some '\\' := by
    simpa [spansLines, and_assoc] using hspans
  have hnone := eq_nil_of_hasSeveralLines h hsingle
  subst hnone
  rw [List.intercalate_singleton] at hquote hslash
  have hread := readBlock_lines (n := n) h.unbroken (fun _ m hm c hc => by
      cases hm
      exact ⟨fun hsame => hquote (hsame ▸ hc), fun hsame => hslash (hsame ▸ hc)⟩)
    fun acc => readBlock_close acc rest
  have hopens : ¬ opensLine (['\n'].intercalate [l]) = true := by
    rw [opensLine, hspans]
    exact Bool.false_ne_true
  refine ⟨[l], ?_, dedent_line (h.first l rfl) fun _ hm => nomatch hm⟩
  rw [body, if_neg hopens, if_neg (Bool.eq_false_iff.1 hspans), List.nil_append, List.append_nil,
    hread]
  rfl

/-- The lines that are read from a block are dedented to those it was written with. -/
theorem readBlock_body (h : IsDedented lines) (n : Nat) (rest : List Char) : ∃ raw,
    readBlock [] (shift n (body (['\n'].intercalate lines)) ++ '"' :: '"' :: '"' :: rest)
        = .ok (raw, rest) ∧ dedent raw = lines := by
  cases lines with
  | nil => exact ⟨[[]], readBlock_close [] rest, rfl⟩
  | cons l ls =>
    by_cases hspans : spansLines (['\n'].intercalate (l :: ls)) = true
    · exact readBlock_spread h n rest hspans
    · exact readBlock_single h n rest (Bool.eq_false_iff.2 hspans)

/-- **Block text is read back if a block can denote its lines (`IsDedented`).** -/
theorem writes_render (h : IsDedented lines) :
    Writes (render (ofLines lines)) [.blockString (ofLines lines)] := by
  intro n rest _
  have hmarks : shift n ['"', '"', '"'] = ['"', '"', '"'] := shift_eq_self (by simp)
  rw [toList_render, toList_ofLines, shift_append, shift_append, hmarks, List.append_assoc,
    List.append_assoc]
  obtain ⟨raw, hread, hlines⟩ := readBlock_body h n rest
  refine lex_quote ?_
  show (readBlock [] (shift n (body (['\n'].intercalate lines)) ++ '"' :: '"' :: '"' :: rest)).map
    (fun r => (Token.blockString (blockValue r.1), r.2)) = _
  rw [hread]
  show Except.ok (Token.blockString ("\n".intercalate ((dedent raw).map String.ofList)), rest) = _
  rw [hlines]
  rfl

end BlockText

end SchemaLoom.Sdl
