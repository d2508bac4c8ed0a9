/-
References to arguments in the text of a template.

A template refers to an argument by its name behind an opening, and perhaps with a closing behind
it (`Shows`).  A text that is put together at characters which no reference holds, such as blanks
and brackets, refers to what its parts refer to (`showsIn_break`).  So it is known what a
template refers to if it is known of the values that its lines are put together from.

The same holds for the parts within an argument, which only have a longer opening.  Therefore
nothing is said here about openings but how they begin (`IsForm`).

Most of a line are fixed words.  These refer to nothing (`IsSilent`), which is decided on their
characters, and as long as a word ends or begins at a separator it can be left out
(`IsForm.shows_lead`, `IsForm.shows_tail`).
-/
import Mathlib.Data.List.Infix
import SchemaLoom.Proofs.Lists
import SchemaLoom.Proofs.Resolver.Containment
import SchemaLoom.Proofs.Sdl.Lexing

namespace SchemaLoom.Resolver

/-! ### Characters

A name shows between an opening and a closing only if it shows as a whole: it ends where no name
goes on.
-/

/-- The characters `name` are a name, and `rest` does not go on with it. -/
structure IsWhole (name rest : List Char) : Prop where
  notEmpty : name ≠ []
  continues : ∀ c ∈ name, Sdl.isNameContinue c = true
  ends : Sdl.Apart rest

/-- The characters `cs` show `name` between `opening` and `closing`. -/
def ShowsIn (opening closing cs name : List Char) : Prop :=
  ∃ before after, cs = before ++ (opening ++ (name ++ (closing ++ after))) ∧
    IsWhole name (closing ++ after)

section Characters

variable {opening closing cs name : List Char} {k : Char}

theorem IsWhole.takeWhile {rest : List Char} (h : IsWhole name rest) :
    (name ++ rest).takeWhile Sdl.isNameContinue = name := by
  rw [List.takeWhile_append_of_pos h.continues]
  cases rest with
  | nil => simp
  | cons c rest => simp [h.ends c rfl]

/-- A name is where it ends. -/
theorem IsWhole.eq {rest other more : List Char} (h : IsWhole name rest)
    (hother : IsWhole other more)
    (hsame : name ++ rest = other ++ more) : name = other ∧ rest = more := by
  have hname : name = other := by
    rw [← h.takeWhile, hsame, hother.takeWhile]
  subst hname
  exact ⟨rfl, List.append_cancel_left hsame⟩

/-- What stands behind a character that is no part of a name does not matter to names before it. -/
theorem isWhole_append_cons (hk : Sdl.isNameContinue k = false) {rest more : List Char} :
    IsWhole name (rest ++ k :: more) ↔ IsWhole name rest := by
  cases rest with
  | nil => exact ⟨fun h => ⟨h.notEmpty, h.continues, Sdl.apart_nil⟩,
      fun h => ⟨h.notEmpty, h.continues, Sdl.apart_cons hk more⟩⟩
  | cons c rest => exact ⟨fun h => ⟨h.notEmpty, h.continues, h.ends⟩,
      fun h => ⟨h.notEmpty, h.continues, h.ends⟩⟩

/-- What is shown is shown in a longer text, unless that goes on with the name. -/
theorem showsIn_append_cons (hk : Sdl.isNameContinue k = false)
    (h : ShowsIn opening closing cs name)
    (more : List Char) : ShowsIn opening closing (cs ++ k :: more) name := by
  obtain ⟨before, after, rfl, hwhole⟩ := h
  refine ⟨before, after ++ k :: more, by simp, ?_⟩
  rw [← List.append_assoc]
  exact (isWhole_append_cons hk).2 hwhole

theorem ShowsIn.prepend (h : ShowsIn opening closing cs name) (lead : List Char) :
    ShowsIn opening closing (lead ++ cs) name := by
  obtain ⟨before, after, rfl, hwhole⟩ := h
  exact ⟨lead ++ before, after, by simp, hwhole⟩

/-- **A character that no reference holds parts a text.** -/
theorem showsIn_break (hopening : k ∉ opening) (hclosing : k ∉ closing)
    (hk : Sdl.isNameContinue k = false) (as bs : List Char) :
    ShowsIn opening closing (as ++ k :: bs) name ↔
      ShowsIn opening closing as name ∨ ShowsIn opening closing bs name := by
  constructor
  · rintro ⟨before, after, htext, hwhole⟩
    have hname : k ∉ name := fun hmem => by simp [hwhole.continues k hmem] at hk
    have hout : k ∉ opening ++ (name ++ closing) := by simp [hopening, hname, hclosing]
    rw [← List.append_assoc name, ← List.append_assoc opening] at htext
    rcases append_cons_eq_append hout htext with ⟨more, rfl, rfl⟩ | ⟨more, -, rfl⟩
    · refine Or.inl ⟨before, more, by simp, ?_⟩
      rw [← List.append_assoc] at hwhole
      exact (isWhole_append_cons hk).1 hwhole
    · exact Or.inr ⟨more, after, by simp, hwhole⟩
  · rintro (hleft | hright)
    · exact showsIn_append_cons hk hleft bs
    · rw [← List.singleton_append, ← List.append_assoc]
      exact hright.prepend (as ++ [k])

/-- What is shown holds every character of the opening. -/
theorem not_showsIn_of_not_mem (hopening : k ∈ opening) (hk : k ∉ cs) :
    ¬ ShowsIn opening closing cs name := by
  rintro ⟨before, after, rfl, -⟩
  simp [hopening] at hk

/-- A reference stands at the front, or behind the first character. -/
theorem showsIn_cons_iff (c : Char) (cs : List Char) :
    ShowsIn opening closing (c :: cs) name ↔
      (∃ after, c :: cs = opening ++ (name ++ (closing ++ after)) ∧
        IsWhole name (closing ++ after)) ∨ ShowsIn opening closing cs name := by
  constructor
  · rintro ⟨before, after, htext, hwhole⟩
    cases before with
    | nil => exact Or.inl ⟨after, htext, hwhole⟩
    | cons d before =>
      rw [List.cons_append, List.cons.injEq] at htext
      exact Or.inr ⟨before, after, htext.2, hwhole⟩
  · rintro (⟨after, htext, hwhole⟩ | hlater)
    · exact ⟨[], after, htext, hwhole⟩
    · exact hlater.prepend [c]

/-- Characters without the first one of the opening may be left out in front. -/
theorem showsIn_append_of_not_mem (hopening : opening.head? = some k) (cs : List Char)
    {lead : List Char} (hlead : k ∉ lead) :
    ShowsIn opening closing (lead ++ cs) name ↔ ShowsIn opening closing cs name := by
  induction lead with
  | nil => rfl
  | cons c lead ih =>
    rw [List.mem_cons, not_or] at hlead
    rw [List.cons_append, showsIn_cons_iff, ih hlead.2]
    constructor
    · rintro (⟨after, htext, -⟩ | hlater)
      · cases opening with
        | nil => cases hopening
        | cons d opening =>
          rw [List.cons_append, List.cons.injEq] at htext
          rw [List.head?_cons, Option.some.injEq] at hopening
          exact absurd (hopening.symm.trans htext.1.symm) hlead.1
      · exact hlater
    · exact Or.inr

end Characters

/-! ### Texts

References of one form stand between fixed texts that hold no separator (`IsForm`).  So a
reference that shows in texts with separators between them shows in one of the texts.
-/

/-- The text `text` shows `name` between `opening` and `closing`. -/
def Shows (opening closing text name : String) : Prop :=
  ShowsIn opening.toList closing.toList text.toList name.toList

/-- How references to arguments begin. -/
def argumentLeads : List String := ["$ctx.args.", "$\x7bctx.args."]

/-- Where texts are put together; no reference holds these characters. -/
def separators : List Char := [' ', '\n', '"', '\'', '(', ')', ',', ':', '#']

/-- References between `opening` and `closing` are those to arguments or to parts of them. -/
structure IsForm (opening closing : String) : Prop where
  starts : ∃ lead ∈ argumentLeads, lead.toList <+: opening.toList
  opens : ∃ rest, opening.toList = '$' :: rest ∧ '$' ∉ rest
  whole : ∀ k ∈ separators, k ∉ opening.toList ∧ k ∉ closing.toList

/-- The characters refer to no argument; references go on with `c` or a brace behind their sign. -/
def IsQuiet (cs : List Char) : Prop := ¬ ['$', 'c'] <:+: cs ∧ ¬ ['$', '\x7b'] <:+: cs

instance (cs : List Char) : Decidable (IsQuiet cs) :=
  inferInstanceAs (Decidable (¬ ['$', 'c'] <:+: cs ∧ ¬ ['$', '\x7b'] <:+: cs))

/-- The text refers to no argument. -/
def IsSilent (text : String) : Prop := IsQuiet text.toList

instance (text : String) : Decidable (IsSilent text) :=
  inferInstanceAs (Decidable (IsQuiet text.toList))

/-- The characters refer to no argument and end where texts are put together. -/
structure IsLead (cs : List Char) : Prop where
  quiet : IsQuiet cs
  ends : ∃ k ∈ separators, cs.getLast? = some k

instance (cs : List Char) : Decidable (IsLead cs) :=
  decidable_of_iff (IsQuiet cs ∧ cs.getLast?.any separators.contains = true)
    ⟨fun h => ⟨h.1, by simpa [Option.any_eq_true, and_comm] using h.2⟩,
      fun h => ⟨h.quiet, by simpa [Option.any_eq_true, and_comm] using h.ends⟩⟩

/-- The characters refer to no argument and begin where texts are put together. -/
structure IsTail (cs : List Char) : Prop where
  quiet : IsQuiet cs
  starts : ∃ k ∈ separators, cs.head? = some k

instance (cs : List Char) : Decidable (IsTail cs) :=
  decidable_of_iff (IsQuiet cs ∧ cs.head?.any separators.contains = true)
    ⟨fun h => ⟨h.1, by simpa [Option.any_eq_true, and_comm] using h.2⟩,
      fun h => ⟨h.quiet, by simpa [Option.any_eq_true, and_comm] using h.starts⟩⟩

theorem not_isNameContinue_of_separator {k : Char} (hk : k ∈ separators) :
    Sdl.isNameContinue k = false := by
  have hall : separators.all (fun k => !Sdl.isNameContinue k) = true := by decide
  simpa using List.all_eq_true.1 hall k hk

/-- A text without the sign of references is silent. -/
theorem isSilent_of_not_mem {text : String} (h : '$' ∉ text.toList) : IsSilent text :=
  ⟨fun hin => h (hin.subset List.mem_cons_self), fun hin => h (hin.subset List.mem_cons_self)⟩

theorem IsQuiet.of_infix {cs more : List Char} (h : IsQuiet more) (hin : cs <:+: more) :
    IsQuiet cs :=
  ⟨fun hhere => h.1 (hhere.trans hin), fun hhere => h.2 (hhere.trans hin)⟩

section Forms

variable {opening closing : String} (h : IsForm opening closing) {name : String}

include h

theorem IsForm.not_showsIn {cs : List Char} (hquiet : IsQuiet cs) :
    ¬ ShowsIn opening.toList closing.toList cs name.toList := by
  have hsigns : ∀ lead ∈ argumentLeads,
      ['$', 'c'] <+: lead.toList ∨ ['$', '\x7b'] <+: lead.toList := by decide
  rintro ⟨before, after, rfl, -⟩
  obtain ⟨lead, hlead, hstarts⟩ := h.starts
  have hhere : opening.toList <:+:
      before ++ (opening.toList ++ (name.toList ++ (closing.toList ++ after))) :=
    ⟨before, name.toList ++ (closing.toList ++ after), by simp⟩
  rcases hsigns lead hlead with hsign | hsign
  · exact hquiet.1 ((hsign.trans hstarts).isInfix.trans hhere)
  · exact hquiet.2 ((hsign.trans hstarts).isInfix.trans hhere)

theorem IsForm.not_shows {text : String} (hsilent : IsSilent text) :
    ¬ Shows opening closing text name :=
  h.not_showsIn hsilent

/-- Fixed words are taken as the characters that they consist of, which are decided fast. -/
theorem IsForm.not_shows_word {word : List Char} (hquiet : IsQuiet word) :
    ¬ Shows opening closing (String.ofList word) name := by
  rw [Shows, String.toList_ofList]
  exact h.not_showsIn hquiet

theorem IsForm.showsIn_break {k : Char} (hk : k ∈ separators) (as bs : List Char) :
    ShowsIn opening.toList closing.toList (as ++ k :: bs) name.toList ↔
      ShowsIn opening.toList closing.toList as name.toList ∨
        ShowsIn opening.toList closing.toList bs name.toList :=
  Resolver.showsIn_break (h.whole k hk).1 (h.whole k hk).2
    (not_isNameContinue_of_separator hk) as bs

/-- **A silent text in front that ends with a separator (`IsLead`) adds nothing.** -/
theorem IsForm.shows_lead {lead : List Char} (hlead : IsLead lead) (text : String) :
    Shows opening closing (String.ofList lead ++ text) name ↔ Shows opening closing text name := by
  obtain ⟨k, hk, hlast⟩ := hlead.ends
  obtain ⟨front, rfl⟩ := List.getLast?_eq_some_iff.1 hlast
  have hfront : ¬ ShowsIn opening.toList closing.toList front name.toList :=
    h.not_showsIn (hlead.quiet.of_infix (List.infix_append' [] front [k]))
  rw [Shows, String.toList_append, String.toList_ofList, List.append_assoc, List.singleton_append,
    h.showsIn_break hk, or_iff_right hfront, Shows]

/-- **A silent text behind that begins with a separator (`IsTail`) adds nothing.** -/
theorem IsForm.shows_tail {tail : List Char} (htail : IsTail tail) (text : String) :
    Shows opening closing (text ++ String.ofList tail) name ↔ Shows opening closing text name := by
  obtain ⟨k, hk, hhead⟩ := htail.starts
  obtain ⟨back, rfl⟩ := List.head?_eq_some_iff.1 hhead
  have hback : ¬ ShowsIn opening.toList closing.toList back name.toList :=
    h.not_showsIn (htail.quiet.of_infix (List.suffix_cons k back).isInfix)
  rw [Shows, String.toList_append, String.toList_ofList, h.showsIn_break hk, or_iff_left hback,
    Shows]

/-- A silent text between separators only keeps others apart. -/
theorem IsForm.shows_middle {middle : List Char} (htail : IsTail middle) (hlead : IsLead middle)
    (text more : String) : Shows opening closing (text ++ String.ofList middle ++ more) name ↔
      Shows opening closing text name ∨ Shows opening closing more name := by
  obtain ⟨k, hk, hhead⟩ := htail.starts
  obtain ⟨back, rfl⟩ := List.head?_eq_some_iff.1 hhead
  have hmore : ShowsIn opening.toList closing.toList (k :: (back ++ more.toList)) name.toList ↔
      ShowsIn opening.toList closing.toList (back ++ more.toList) name.toList := by
    rw [← List.nil_append (k :: _), h.showsIn_break hk]
    exact or_iff_right (h.not_showsIn (by decide))
  have hrest : Shows opening closing (String.ofList (k :: back) ++ more) name ↔
      Shows opening closing more name := h.shows_lead hlead more
  rw [Shows, String.toList_append, String.toList_ofList, List.cons_append, hmore] at hrest
  rw [Shows, String.append_assoc, String.toList_append, String.toList_append, String.toList_ofList,
    List.cons_append, h.showsIn_break hk, hrest]
  rfl

/-! ### Expressions and statements -/

theorem shows_quoted (text : String) :
    Shows opening closing (quoted text) name ↔ Shows opening closing text name := by
  unfold quoted
  rw [h.shows_tail (by decide), h.shows_lead (by decide)]

theorem shows_named (key value : String) : Shows opening closing (named key value) name ↔
    Shows opening closing key name ∨ Shows opening closing value name := by
  unfold named
  rw [h.shows_middle (by decide) (by decide), shows_quoted h]

theorem shows_isGiven (expression : String) :
    Shows opening closing (isGiven expression) name ↔ Shows opening closing expression name := by
  unfold isGiven
  rw [h.shows_tail (by decide), h.shows_lead (by decide)]

theorem shows_stored (expression : String) :
    Shows opening closing (stored expression) name ↔ Shows opening closing expression name := by
  unfold stored
  rw [h.shows_tail (by decide), h.shows_lead (by decide)]

theorem shows_orElse (expression default : String) :
    Shows opening closing (orElse expression default) name ↔
      Shows opening closing expression name ∨ Shows opening closing default name := by
  unfold orElse
  rw [h.shows_tail (by decide), h.shows_middle (by decide) (by decide),
    h.shows_lead (by decide)]

theorem shows_assign (target value : String) : Shows opening closing (assign target value) name ↔
    Shows opening closing target name ∨ Shows opening closing value name := by
  unfold assign
  rw [h.shows_tail (by decide), h.shows_middle (by decide) (by decide),
    h.shows_lead (by decide)]

theorem shows_put {target : List Char} (htarget : IsLead (target ++ ".put(".toList))
    (key value : String) : Shows opening closing (put (String.ofList target) key value) name ↔
      Shows opening closing key name ∨ Shows opening closing value name := by
  have hcall : String.ofList target ++ ".put(" = String.ofList (target ++ ".put(".toList) := by
    rw [String.ofList_append, String.ofList_toList]
  unfold put perform
  rw [h.shows_tail (by decide), h.shows_lead (by decide), h.shows_tail (by decide),
    h.shows_middle (by decide) (by decide), hcall, h.shows_lead htarget, shows_quoted h]

end Forms

section Front

variable {opening closing name text : String}

/-- A text that shows the sign of references only in front shows names only there. -/
theorem IsForm.shows_front (h : IsForm opening closing) {rest : List Char}
    (htext : text.toList = '$' :: rest) (hrest : '$' ∉ rest) :
    Shows opening closing text name ↔
      ∃ after, text.toList = opening.toList ++ (name.toList ++ (closing.toList ++ after)) ∧
        IsWhole name.toList (closing.toList ++ after) := by
  obtain ⟨more, hopening, -⟩ := h.opens
  have hlater : ¬ ShowsIn opening.toList closing.toList rest name.toList :=
    not_showsIn_of_not_mem (hopening ▸ List.mem_cons_self) hrest
  rw [Shows, htext, showsIn_cons_iff, or_iff_left hlater]

/-- What is read of the source of a relation is no argument. -/
theorem IsForm.shows_source (h : IsForm opening closing) (mine : String) :
    Shows opening closing ("$ctx.source." ++ mine) name ↔ Shows opening closing mine name := by
  obtain ⟨more, hopening, -⟩ := h.opens
  have hhead : opening.toList.head? = some '$' := by rw [hopening, List.head?_cons]
  have hsource : "$ctx.source.".toList = '$' :: "ctx.source.".toList := by decide
  rw [Shows, String.toList_append, hsource, List.cons_append, showsIn_cons_iff, or_iff_right]
  · exact showsIn_append_of_not_mem hhead mine.toList (by decide)
  · rintro ⟨after, htext, -⟩
    obtain ⟨lead, hlead, hstarts⟩ := h.starts
    have hshort : ∀ lead ∈ argumentLeads, lead.toList.length ≤ "$ctx.source.".toList.length ∧
        ¬ lead.toList <+: "$ctx.source.".toList := by decide
    have hhere : lead.toList <+: "$ctx.source.".toList ++ mine.toList := by
      rw [hsource, List.cons_append, htext]
      exact hstarts.trans (List.prefix_append _ _)
    exact (hshort lead hlead).2
      (List.prefix_of_prefix_length_le hhere (List.prefix_append _ _) (hshort lead hlead).1)

end Front

/-! ### Lines -/

/-- A line of `t` shows `name` between `opening` and `closing`. -/
def Template.Shows (opening closing : String) (t : Template) (name : String) : Prop :=
  ∃ line ∈ t, Resolver.Shows opening closing line name

section Lines

variable {opening closing name : String} {s t : Template}

theorem Template.not_shows_nil : ¬ Template.Shows opening closing [] name := by
  rintro ⟨line, hline, -⟩
  cases hline

theorem Template.shows_cons {line : String} : Template.Shows opening closing (line :: t) name ↔
    Resolver.Shows opening closing line name ∨ t.Shows opening closing name := by
  simp [Template.Shows]

theorem Template.shows_append : Template.Shows opening closing (s ++ t) name ↔
    s.Shows opening closing name ∨ t.Shows opening closing name := by
  simp [Template.Shows, or_and_right, exists_or]

theorem Template.shows_singleton {line : String} : Template.Shows opening closing [line] name ↔
    Resolver.Shows opening closing line name := by
  simp [Template.Shows]

theorem Template.shows_flatMap {α : Type} {as : List α} {lines : α → Template} :
    Template.Shows opening closing (as.flatMap lines) name ↔
      ∃ a ∈ as, (lines a).Shows opening closing name := by
  simp only [Template.Shows, List.mem_flatMap]
  constructor
  · rintro ⟨line, ⟨a, ha, hline⟩, hshown⟩
    exact ⟨a, ha, line, hline, hshown⟩
  · rintro ⟨a, ha, line, hline, hshown⟩
    exact ⟨line, ⟨a, ha, hline⟩, hshown⟩

/-- Lines that stand there if something is given. -/
theorem Template.shows_elim {α : Type} {given : Option α} {lines : α → Template} :
    Template.Shows opening closing (given.elim [] lines) name ↔
      ∃ a ∈ given, (lines a).Shows opening closing name := by
  cases given with
  | none => simp [Template.not_shows_nil]
  | some a => simp

variable (h : IsForm opening closing)

include h

/-- Lines that refer to nothing show nothing. -/
theorem Template.not_shows {t : Template} (hsilent : ∀ line ∈ t, IsSilent line) :
    ¬ t.Shows opening closing name := by
  rintro ⟨line, hline, hshown⟩
  exact h.not_shows (hsilent line hline) hshown

/-- **The text of a template shows what its lines show.** -/
theorem Template.shows_text :
    Resolver.Shows opening closing t.text name ↔ t.Shows opening closing name := by
  induction t with
  | nil => exact iff_of_false (h.not_shows (by decide)) Template.not_shows_nil
  | cons line t ih =>
    rw [Template.text_cons, h.shows_middle (by decide) (by decide), ih,
      Template.shows_cons]

theorem shows_shiftedLine (line : String) :
    Shows opening closing (shiftedLine line) name ↔ Shows opening closing line name := by
  unfold shiftedLine
  split
  next hempty => rw [hempty]
  · exact h.shows_lead (by decide) line

theorem Template.shows_shifted :
    Template.Shows opening closing (shifted t) name ↔ t.Shows opening closing name := by
  simp [Template.Shows, shifted, shows_shiftedLine h]

theorem Template.shows_endedBy :
    Template.Shows opening closing (endedBy "," t) name ↔ t.Shows opening closing name := by
  induction t with
  | nil => rfl
  | cons line t ih =>
    cases t with
    | nil =>
      rw [endedBy, Template.shows_singleton, Template.shows_singleton, h.shows_tail (by decide)]
    | cons next t =>
      rw [endedBy, Template.shows_cons, ih]
      · exact Template.shows_cons.symm
      · exact List.cons_ne_nil next t

theorem Template.shows_members {ms : List Template} :
    Template.Shows opening closing (members ms) name ↔ ∃ m ∈ ms, m.Shows opening closing name := by
  induction ms with
  | nil => simp [members, Template.Shows]
  | cons m ms ih =>
    cases ms with
    | nil => simp [members]
    | cons next ms =>
      rw [members, Template.shows_append, Template.shows_endedBy h, ih]
      · simp only [List.exists_mem_cons_iff]
      · exact List.cons_ne_nil next ms

theorem Template.shows_mapping {lead tail : String} (hlead : IsSilent (lead ++ "\x7b"))
    (htail : IsSilent ("\x7d" ++ tail)) {ms : List Template} :
    Template.Shows opening closing (mapping lead ms tail) name ↔
      ∃ m ∈ ms, m.Shows opening closing name := by
  rw [mapping, List.cons_append, Template.shows_cons, Template.shows_append,
    Template.shows_singleton, Template.shows_shifted h, Template.shows_members h,
    or_iff_right (h.not_shows hlead), or_iff_left (h.not_shows htail)]

theorem Template.shows_submap {key : String} (hkey : IsSilent (quoted key ++ ": " ++ "\x7b"))
    {ms : List String} : Template.Shows opening closing (submap key ms) name ↔
      ∃ m ∈ ms, Resolver.Shows opening closing m name := by
  rw [submap, Template.shows_mapping h hkey (by decide)]
  simp [Template.shows_singleton]

theorem Template.shows_block {condition : String} :
    Template.Shows opening closing (block condition t) name ↔
      Resolver.Shows opening closing condition name ∨ t.Shows opening closing name := by
  rw [block, List.cons_append, Template.shows_cons, Template.shows_append,
    Template.shows_singleton, h.shows_tail (by decide), h.shows_lead (by decide),
    or_iff_left (h.not_shows_word (by decide))]

theorem Template.shows_whenever {condition : String} :
    Template.Shows opening closing (whenever condition t) name ↔
      Resolver.Shows opening closing condition name ∨ t.Shows opening closing name := by
  rw [whenever, Template.shows_block h, Template.shows_shifted h]

theorem Template.shows_choose {condition : String} :
    Template.Shows opening closing (choose condition s t) name ↔
      Resolver.Shows opening closing condition name ∨ s.Shows opening closing name ∨
        t.Shows opening closing name := by
  have helse : ¬ Resolver.Shows opening closing "#else" name := h.not_shows_word (by decide)
  have hend : ¬ Resolver.Shows opening closing "#end" name := h.not_shows_word (by decide)
  rw [choose, branch, List.cons_append, List.cons_append, Template.shows_cons, List.append_assoc,
    Template.shows_append, List.cons_append, Template.shows_cons, Template.shows_append,
    Template.shows_singleton, Template.shows_shifted h, Template.shows_shifted h,
    h.shows_tail (by decide), h.shows_lead (by decide), or_iff_right helse,
    or_iff_left hend]

theorem Template.shows_request {version operation : String} (hversion : IsSilent version)
    (hoperation : IsSilent operation) {more : List Template} :
    Template.Shows opening closing (request version operation more) name ↔
      ∃ m ∈ more, m.Shows opening closing name := by
  have hlead : ∀ word ∈ ["version", "operation"], ¬ Resolver.Shows opening closing word name :=
    fun word hword => h.not_shows (by revert word; decide)
  have hfirst : ¬ Resolver.Shows opening closing (named "version" (quoted version)) name := by
    rw [shows_named h, shows_quoted h, not_or]
    exact ⟨hlead "version" (by simp), h.not_shows hversion⟩
  have hsecond : ¬ Resolver.Shows opening closing (named "operation" (quoted operation)) name := by
    rw [shows_named h, shows_quoted h, not_or]
    exact ⟨hlead "operation" (by simp), h.not_shows hoperation⟩
  rw [request, Template.shows_mapping h (by decide) (by decide),
    List.exists_mem_cons_iff, List.exists_mem_cons_iff, Template.shows_singleton,
    Template.shows_singleton, or_iff_right hfirst, or_iff_right hsecond]

end Lines

end SchemaLoom.Resolver
