/-
The marks of blocks.

Two number signs start a remark, which ends with its line.  Outside of remarks a number sign in
front of `if(` or `foreach(` opens a block, and one in front of the word `end` closes the block that
was opened last.  Whatever stands on a line in quotation marks is no exception.

Number signs also stand between the parts of shared attributes and of markers, and in front of
placeholders.  So a name may close a block, and of every text it is told here under which condition
its blocks are level (`LevelIf`): if the condition holds, the text can be put anywhere and closes
what it has opened; otherwise it closes more than it opens.  What stands between two texts decides
whether the marks of both are the marks of the whole: no word must go on across the joint, and no
number sign (`blockMarks_append`).
-/
import Mathlib.Data.List.Infix
import SchemaLoom.Proofs.Lists
import SchemaLoom.Proofs.Sdl.Lexing
import SchemaLoom.Resolver.Item

namespace SchemaLoom.Resolver

/-! ### Marks of blocks

Two words open a block behind a number sign, and one closes it.  Behind two number signs they are
part of a remark, up to the end of the line.
-/

/-- What a block begins and ends with. -/
inductive BlockMark where
  | opening
  | closing
  deriving DecidableEq, Repr

/-- The mark that the text behind a number sign makes of it. -/
def markAt (cs : List Char) : Option BlockMark :=
  if ['i', 'f', '('] <+: cs ∨ ['f', 'o', 'r', 'e', 'a', 'c', 'h', '('] <+: cs then some .opening
  else if ['e', 'n', 'd'] <+: cs ∧ (cs.drop 3).head?.all (!Sdl.isNameContinue ·) = true then
    some .closing
  else none

/-- Does a remark go on behind the character `c`, or begin there? -/
def goesOnInRemark (inRemark : Bool) (c : Char) (cs : List Char) : Bool :=
  if inRemark then c ≠ '\n' else c = '#' ∧ cs.head? = some '#'

/-- The marks of blocks in a text that begins within a remark or outside. -/
def blockMarks : Bool → List Char → List BlockMark
  | _, [] => []
  | inRemark, c :: cs =>
    (if inRemark = false ∧ c = '#' then markAt cs else none).toList
      ++ blockMarks (goesOnInRemark inRemark c cs) cs

/-- Does the text end within a remark, if it begins within one or outside? -/
def endsInRemark : Bool → List Char → Bool
  | inRemark, [] => inRemark
  | inRemark, c :: cs => endsInRemark (goesOnInRemark inRemark c cs) cs

/-- How many blocks are open behind some marks, unless one closes a block that is not open. -/
def depth : Nat → List BlockMark → Option Nat
  | d, [] => some d
  | d, .opening :: ms => depth (d + 1) ms
  | 0, .closing :: _ => none
  | d + 1, .closing :: ms => depth d ms

/-! ### Sequences of marks

The condition is part of the statement, and not a hypothesis: without it the marks close more than
they open, so they cannot be balanced by anything that opens no more than it closes.  That is what
makes the characterisation exact.
-/

theorem depth_append (d : Nat) (ms ns : List BlockMark) :
    depth d (ms ++ ns) = (depth d ms).bind (depth · ns) := by
  fun_induction depth d ms with
  | case1 d => rfl
  | case2 d ms ih => exact ih
  | case3 ms => rfl
  | case4 d ms ih => exact ih

/-- Blocks that are closed can be counted. -/
theorem count_of_depth {d e : Nat} {ms : List BlockMark} (h : depth d ms = some e) :
    d + ms.count .opening = e + ms.count .closing := by
  fun_induction depth d ms with
  | case1 d => simpa using h
  | case2 d ms ih =>
    have := ih h
    simp only [List.count_cons_self,
      List.count_cons_of_ne (by decide : BlockMark.opening ≠ .closing)]
    omega
  | case3 ms => cases h
  | case4 d ms ih =>
    have := ih h
    simp only [List.count_cons_self,
      List.count_cons_of_ne (by decide : BlockMark.closing ≠ .opening)]
    omega

/-- If `P` holds, the marks can be put anywhere and close what they open.  Otherwise they close more
than they open. -/
structure IsLevelIf (ms : List BlockMark) (P : Prop) : Prop where
  level : P → ∀ d, depth d ms = some d
  excess : ¬ P → ms.count .opening < ms.count .closing

namespace IsLevelIf

variable {ms ns : List BlockMark} {P Q : Prop}

theorem nil : IsLevelIf [] True := ⟨fun _ _ => rfl, fun h => absurd trivial h⟩

/-- In any case marks open no more than they close. -/
theorem count_le (h : IsLevelIf ms P) : ms.count .opening ≤ ms.count .closing := by
  by_cases hp : P
  · have := count_of_depth (h.level hp 0)
    omega
  · exact Nat.le_of_lt (h.excess hp)

theorem append (hms : IsLevelIf ms P) (hns : IsLevelIf ns Q) : IsLevelIf (ms ++ ns) (P ∧ Q) where
  level hboth d := by rw [depth_append, hms.level hboth.1 d, Option.bind_some, hns.level hboth.2 d]
  excess hnot := by
    have hms' := hms.count_le
    have hns' := hns.count_le
    rw [List.count_append, List.count_append]
    by_cases hp : P
    · have := hns.excess fun hq => hnot ⟨hp, hq⟩
      omega
    · have := hms.excess hp
      omega

theorem block (h : IsLevelIf ms P) : IsLevelIf (.opening :: (ms ++ [.closing])) P where
  level hp d := by rw [depth, depth_append, h.level hp (d + 1)]; rfl
  excess hnot := by
    have := h.excess hnot
    simp
    omega

theorem congr (h : IsLevelIf ms P) (himp : P ↔ Q) : IsLevelIf ms Q := propext himp ▸ h

/-- Marks that nothing but closes is made of. -/
theorem closings {names : List String} (word : String) :
    IsLevelIf (names.flatMap fun n => if n = word then [.closing] else []) (word ∉ names) where
  level hnot d := by
    have hnone : (names.flatMap fun n => if n = word then [BlockMark.closing] else []) = [] :=
      List.flatMap_eq_nil_iff.2 fun n hn => if_neg fun h : n = word => hnot (h ▸ hn)
    rw [hnone]
    rfl
  excess hnot := by
    have hmem : BlockMark.closing ∈ names.flatMap fun n => if n = word then [.closing] else [] :=
      List.mem_flatMap.2 ⟨word, not_not.1 hnot, by rw [if_pos rfl]; exact List.mem_singleton_self _⟩
    have hnone :
        BlockMark.opening ∉ names.flatMap fun n => if n = word then [.closing] else [] := by
      intro hopening
      obtain ⟨n, -, hn⟩ := List.mem_flatMap.1 hopening
      split at hn
      · cases List.mem_singleton.1 hn
      · cases hn
    rw [List.count_eq_zero_of_not_mem hnone]
    exact List.count_pos_iff.2 hmem

theorem depth_eq_iff (h : IsLevelIf ms P) : depth 0 ms = some 0 ↔ P := by
  constructor
  · intro hdepth
    by_contra hnot
    have hcount := count_of_depth hdepth
    have hexcess := h.excess hnot
    omega
  · exact fun hp => h.level hp 0

end IsLevelIf

/-! ### Texts side by side -/

/-- What `cs` begins with continues no word in front of it. -/
def Parted (cs : List Char) : Prop := ∀ c ∈ cs.head?, Sdl.isNameContinue c = false ∧ c ≠ '('

/-- What `cs` begins with continues neither a word nor a number sign in front of it. -/
def Clear (cs : List Char) : Prop :=
  ∀ c ∈ cs.head?, Sdl.isNameContinue c = false ∧ c ≠ '(' ∧ c ≠ '#'

-- The first character alone is looked at: a search through all characters would not end in time.
instance : DecidablePred Parted
  | [] => .isTrue (by simp [Parted])
  | c :: _ => decidable_of_iff (Sdl.isNameContinue c = false ∧ c ≠ '(') (by simp [Parted])

instance : DecidablePred Clear
  | [] => .isTrue (by simp [Clear])
  | c :: _ => decidable_of_iff (Sdl.isNameContinue c = false ∧ c ≠ '(' ∧ c ≠ '#') (by simp [Clear])

theorem Clear.parted {cs : List Char} (h : Clear cs) : Parted cs :=
  fun c hc => ⟨(h c hc).1, (h c hc).2.1⟩

theorem parted_of_head? {cs : List Char} (h : cs.head? = some '#') : Parted cs := by
  intro c hc
  rw [h, Option.mem_some_iff] at hc
  rw [← hc]
  decide

theorem Clear.append {cs ds : List Char} (hcs : Clear cs) (hds : Clear ds) : Clear (cs ++ ds) := by
  cases cs with
  | nil => exact hds
  | cons c cs => exact hcs

/-- A word is not completed by what is parted from it. -/
theorem prefix_append_iff {word rest : List Char} (cs : List Char)
    (hword : word.all (fun c => Sdl.isNameContinue c || c == '(') = true) (hrest : Parted rest) :
    word <+: cs ++ rest ↔ word <+: cs := by
  refine ⟨fun h => ?_, fun h => h.trans (List.prefix_append cs rest)⟩
  rcases List.prefix_or_prefix_of_prefix h (List.prefix_append cs rest) with hshort | ⟨more, rfl⟩
  · exact hshort
  · cases more with
    | nil => exact (List.append_nil cs).symm ▸ List.prefix_rfl
    | cons c more =>
      obtain ⟨behind, hbehind⟩ := (List.prefix_append_right_inj cs).1 h
      obtain ⟨hname, hbracket⟩ := hrest c (by rw [← hbehind]; rfl)
      have hinword := List.all_eq_true.1 hword c (by simp)
      rw [hname, Bool.false_or, beq_iff_eq] at hinword
      exact absurd hinword hbracket

theorem markAt_append {rest : List Char} (hrest : Parted rest) (cs : List Char) :
    markAt (cs ++ rest) = markAt cs := by
  have hend : (['e', 'n', 'd'] <+: cs ++ rest ∧
        ((cs ++ rest).drop 3).head?.all (!Sdl.isNameContinue ·) = true) ↔
      (['e', 'n', 'd'] <+: cs ∧ (cs.drop 3).head?.all (!Sdl.isNameContinue ·) = true) := by
    rw [prefix_append_iff cs (by decide) hrest]
    refine and_congr_right fun hinitial => ?_
    obtain ⟨behind, rfl⟩ := hinitial
    cases behind with
    | nil =>
      refine iff_of_true ((Option.all_eq_true _ _).2 fun c hc => ?_) rfl
      simp [(hrest c hc).1]
    | cons c behind => exact Iff.rfl
  have hopening : (['i', 'f', '('] <+: cs ++ rest ∨
        ['f', 'o', 'r', 'e', 'a', 'c', 'h', '('] <+: cs ++ rest) ↔
      (['i', 'f', '('] <+: cs ∨ ['f', 'o', 'r', 'e', 'a', 'c', 'h', '('] <+: cs) :=
    or_congr (prefix_append_iff cs (by decide) hrest) (prefix_append_iff cs (by decide) hrest)
  simp only [markAt, hopening, hend]

/-- **What is apart from a text adds its own marks (`Clear`).** -/
theorem blockMarks_append {rest : List Char} (hrest : Clear rest) (inRemark : Bool)
    (cs : List Char) :
    blockMarks inRemark (cs ++ rest)
      = blockMarks inRemark cs ++ blockMarks (endsInRemark inRemark cs) rest := by
  induction cs generalizing inRemark with
  | nil => rfl
  | cons c cs ih =>
    have hnext : goesOnInRemark inRemark c (cs ++ rest) = goesOnInRemark inRemark c cs := by
      cases cs with
      | nil =>
        have hhead : rest.head? ≠ some '#' := fun h => (hrest '#' h).2.2 rfl
        simp [goesOnInRemark, hhead]
      | cons d cs => rfl
    rw [List.cons_append, blockMarks, blockMarks, endsInRemark, markAt_append hrest.parted, hnext,
      ih, List.append_assoc]

/-- Outside of remarks a text without number signs has no marks. -/
theorem blockMarks_append_of_not_mem {cs : List Char} (h : '#' ∉ cs) (rest : List Char) :
    blockMarks false (cs ++ rest) = blockMarks false rest := by
  induction cs with
  | nil => rfl
  | cons c cs ih =>
    rw [List.mem_cons, not_or] at h
    have hother : ¬ c = '#' := Ne.symm h.1
    simp [blockMarks, goesOnInRemark, hother, ih h.2]

/-- A name behind a number sign is a mark if it is the word that closes blocks. -/
theorem markAt_name {name : String} (hname : Sdl.isName name = true) :
    markAt name.toList = if name = "end" then some .closing else none := by
  have hcontinues := Sdl.continuesName_of_isName hname
  have hbracket : ∀ word : List Char, '(' ∈ word → ¬ word <+: name.toList := fun _ hmem hinitial =>
    absurd (hcontinues '(' (hinitial.subset hmem)) (by decide)
  have hend : (['e', 'n', 'd'] <+: name.toList ∧
      (name.toList.drop 3).head?.all (!Sdl.isNameContinue ·) = true) ↔ name = "end" := by
    constructor
    · rintro ⟨⟨behind, hbehind⟩, hapart⟩
      rw [← hbehind] at hapart
      cases behind with
      | nil => exact String.toList_inj.1 (by rw [← hbehind]; rfl)
      | cons c behind =>
        have hmore := hcontinues c (by rw [← hbehind]; simp)
        simp [hmore] at hapart
    · rintro rfl
      decide
  rw [markAt, if_neg (not_or.2 ⟨hbracket _ (by decide), hbracket _ (by decide)⟩)]
  simp only [hend]

theorem blockMarks_name {name : String} (hname : Sdl.isName name = true) {rest : List Char}
    (hrest : Parted rest) : blockMarks false ('#' :: (name.toList ++ rest))
      = (if name = "end" then [.closing] else []) ++ blockMarks false rest := by
  have hcontinues := Sdl.continuesName_of_isName hname
  have hnosign : '#' ∉ name.toList := fun h => absurd (hcontinues '#' h) (by decide)
  have hnext : goesOnInRemark false '#' (name.toList ++ rest) = false := by
    cases hcs : name.toList with
    | nil => simp [Sdl.isName, hcs] at hname
    | cons c cs =>
      have hother : c ≠ '#' := fun h => hnosign (by rw [hcs, h]; exact List.mem_cons_self)
      simp [goesOnInRemark, hother]
  rw [blockMarks, if_pos ⟨rfl, rfl⟩, markAt_append hrest, markAt_name hname, hnext,
    blockMarks_append_of_not_mem hnosign]
  split <;> rfl

/-! ### Level texts

The blocks of a level text open and close within it, whatever clear text follows (`Level`).
`LevelIf` says so under a condition, and is what a text is that holds a given name.
-/

/-- The text has no number sign. -/
def Plain (text : String) : Prop := '#' ∉ text.toList

instance (text : String) : Decidable (Plain text) := inferInstanceAs (Decidable ('#' ∉ text.toList))

theorem plain_append {s t : String} : Plain (s ++ t) ↔ Plain s ∧ Plain t := by
  rw [Plain, String.toList_append, List.mem_append, not_or]
  exact Iff.rfl

theorem plain_of_isName {name : String} (hname : Sdl.isName name = true) : Plain name :=
  fun h => absurd (Sdl.continuesName_of_isName hname '#' h) (by decide)

/-- A text that is given by its characters needs not be taken apart. -/
theorem plain_ofList {cs : List Char} (h : cs.all (· != '#') = true) :
    Plain (String.ofList cs) := by
  rw [Plain, String.toList_ofList]
  intro hmem
  simpa using List.all_eq_true.1 h '#' hmem

/-- The blocks of `text` are level just if `P` holds, whatever clear text follows. -/
def LevelIf (text : String) (P : Prop) : Prop :=
  ∃ ms, IsLevelIf ms P ∧
    ∀ rest, Clear rest → blockMarks false (text.toList ++ rest) = ms ++ blockMarks false rest

/-- The blocks of `text` are level, whatever clear text follows. -/
def Level (text : String) : Prop := LevelIf text True

section Texts

variable {s t : String} {P Q : Prop}

theorem LevelIf.congr (h : LevelIf s P) (himp : P ↔ Q) : LevelIf s Q := propext himp ▸ h

/-- When the blocks of a text are level is determined by the text. -/
theorem LevelIf.level_iff (h : LevelIf s P) : Level s ↔ P := by
  refine ⟨fun hlevel => ?_, fun hp => h.congr (iff_true_intro hp)⟩
  obtain ⟨ms, hms, htext⟩ := h
  obtain ⟨ns, hns, hsame⟩ := hlevel
  have hmarks : ms = ns :=
    List.append_cancel_right ((htext [] (by decide)).symm.trans (hsame [] (by decide)))
  have hdepth := hns.level trivial 0
  rw [← hmarks] at hdepth
  exact hms.depth_eq_iff.1 hdepth

theorem LevelIf.self (h : LevelIf s P) : LevelIf s (Level s) := h.congr h.level_iff.symm

theorem level_of_plain (h : Plain s) : Level s :=
  ⟨[], .nil, fun rest _ => blockMarks_append_of_not_mem h rest⟩

theorem level_of_isName {name : String} (hname : Sdl.isName name = true) : Level name :=
  level_of_plain (plain_of_isName hname)

/-- A text is level if it has no marks and ends in no remark. -/
theorem level_of_blockMarks
    (h : blockMarks false s.toList = [] ∧ endsInRemark false s.toList = false) :
    Level s := ⟨[], .nil, fun rest hrest => by rw [blockMarks_append hrest, h.1, h.2]⟩

theorem level_ofList {cs : List Char}
    (h : blockMarks false cs = [] ∧ endsInRemark false cs = false) :
    Level (String.ofList cs) :=
  level_of_blockMarks (by rwa [String.toList_ofList])

theorem LevelIf.append (hs : LevelIf s P) (ht : LevelIf t Q) (hclear : Clear t.toList) :
    LevelIf (s ++ t) (P ∧ Q) := by
  obtain ⟨ms, hms, hs⟩ := hs
  obtain ⟨ns, hns, ht⟩ := ht
  refine ⟨ms ++ ns, hms.append hns, fun rest hrest => ?_⟩
  rw [String.toList_append, List.append_assoc, hs _ (hclear.append hrest), ht rest hrest,
    List.append_assoc]

/-- What is put in front of a text must not end in a number sign. -/
theorem LevelIf.behind (ht : LevelIf t P) (hplain : Plain s) : LevelIf (s ++ t) P := by
  obtain ⟨ms, hms, ht⟩ := ht
  refine ⟨ms, hms, fun rest hrest => ?_⟩
  rw [String.toList_append, List.append_assoc, blockMarks_append_of_not_mem hplain, ht rest hrest]

/-- What is put behind a text must not continue a word in it. -/
theorem LevelIf.before (hs : LevelIf s P) (ht : Level t) (hclear : Clear t.toList) :
    LevelIf (s ++ t) P := (hs.append ht hclear).congr (and_iff_left trivial)

theorem LevelIf.enclosed (h : LevelIf s P) {opening closing : String} (hopening : Plain opening)
    (hclosing : Plain closing) (hclear : Clear closing.toList) :
    LevelIf (opening ++ s ++ closing) P :=
  (h.behind hopening).before (level_of_plain hclosing) hclear

/-- Texts with a separator between them. -/
theorem levelIf_intercalate {separator : String} (hplain : Plain separator)
    (hclear : separator.toList ≠ [] ∧ Clear separator.toList) {α : Type} {as : List α}
    {text : α → String} {P : α → Prop} (h : ∀ a ∈ as, LevelIf (text a) (P a)) :
    LevelIf (separator.intercalate (as.map text)) (∀ a ∈ as, P a) := by
  induction as with
  | nil =>
    rw [List.map_nil, String.intercalate_nil]
    exact (level_of_plain (by decide)).congr (by simp)
  | cons first rest ih =>
    rw [List.forall_mem_cons] at h
    cases rest with
    | nil => simpa using h.1
    | cons next rest =>
      rw [List.map_cons, List.map_cons, String.intercalate_cons_cons, List.forall_mem_cons,
        String.append_assoc]
      refine h.1.append ((ih h.2).behind hplain) ?_
      rw [String.toList_append]
      obtain ⟨c, cs, hcs⟩ := List.exists_cons_of_ne_nil hclear.1
      rw [hcs] at hclear ⊢
      exact hclear.2

/-! ### Names behind number signs

A key joins the names of its fields by number signs, so a field that is named like a mark makes
one.  This is the only way in which names that are given get to be marks.
-/

/-- A number sign in front of a sign of references marks nothing. -/
theorem LevelIf.behind_numberSign (h : LevelIf s P) (hsign : s.toList.head? = some '$') :
    LevelIf ("#" ++ s) P := by
  obtain ⟨cs, hcs⟩ := List.head?_eq_some_iff.1 hsign
  obtain ⟨ms, hms, h⟩ := h
  refine ⟨ms, hms, fun rest hrest => ?_⟩
  rw [← h rest hrest, String.toList_append, hcs]
  simp [blockMarks, markAt, goesOnInRemark]

/-- A name behind a number sign closes a block if it is the word for that. -/
theorem LevelIf.behind_name {name : String} (hname : Sdl.isName name = true) (h : LevelIf s P)
    (hparted : Parted s.toList) : LevelIf ("#" ++ name ++ s) (name ≠ "end" ∧ P) := by
  obtain ⟨ms, hms, h⟩ := h
  have hmark : IsLevelIf (if name = "end" then [.closing] else []) (name ≠ "end") := by
    have hclosings : IsLevelIf ([name].flatMap fun n => if n = "end" then [.closing] else [])
        ("end" ∉ [name]) := .closings "end"
    simpa [eq_comm] using hclosings
  refine ⟨_, hmark.append hms, fun rest hrest => ?_⟩
  have hmore : Parted (s.toList ++ rest) := by
    cases hcs : s.toList with
    | nil => exact hrest.parted
    | cons c cs =>
      rw [hcs] at hparted
      exact hparted
  rw [String.toList_append, String.toList_append, List.append_assoc, List.append_assoc]
  exact (blockMarks_name hname hmore).trans (by rw [h rest hrest, List.append_assoc])

theorem levelIf_behind_first {first : String} {rest : List String}
    (hnames : ∀ n ∈ first :: rest, Sdl.isName n = true) :
    LevelIf ("#" ++ keySeparator.intercalate (first :: rest)) ("end" ∉ first :: rest) := by
  induction rest generalizing first with
  | nil =>
    have hfirst := LevelIf.behind_name (hnames first List.mem_cons_self)
      (level_of_plain (by decide : Plain "")) (by decide)
    rw [String.append_empty] at hfirst
    rw [String.intercalate_singleton]
    exact hfirst.congr (by simp [eq_comm])
  | cons next rest ih =>
    rw [List.forall_mem_cons] at hnames
    have hparted : Parted ("#" ++ keySeparator.intercalate (next :: rest)).toList :=
      parted_of_head? (by simp)
    rw [String.intercalate_cons_cons, String.append_assoc, ← String.append_assoc]
    exact (LevelIf.behind_name hnames.1 (ih hnames.2) hparted).congr (by simp [eq_comm])

/-- What is joined as in a shared attribute is level if no part but the first is the word that
closes blocks. -/
theorem levelIf_joined {names : List String} (hnames : ∀ n ∈ names, Sdl.isName n = true) :
    LevelIf (keySeparator.intercalate names) ("end" ∉ names.tail) := by
  cases names with
  | nil =>
    rw [String.intercalate_nil]
    exact (level_of_plain (by decide)).congr (by simp)
  | cons first rest =>
    rw [List.forall_mem_cons] at hnames
    cases rest with
    | nil =>
      rw [String.intercalate_singleton]
      exact (level_of_isName hnames.1).congr (by simp)
    | cons next rest =>
      rw [String.intercalate_cons_cons, String.append_assoc]
      exact (levelIf_behind_first hnames.2).behind (plain_of_isName hnames.1)

/-- References that are joined are level. -/
theorem level_joinedValue {fields : List String} (hfields : ∀ f ∈ fields, Plain f) {source : String}
    (hsource : Plain source) : Level (joinedValue fields source) := by
  have hpart : ∀ f ∈ fields, Plain ("$\x7b" ++ source ++ "." ++ f ++ "\x7d") := by
    intro f hf
    simp only [plain_append, hsource, hfields f hf, (by decide : Plain "$\x7b"),
      (by decide : Plain "."), (by decide : Plain "\x7d"), and_true]
  unfold joinedValue
  induction fields with
  | nil =>
    rw [List.map_nil, String.intercalate_nil]
    exact level_of_plain (by decide)
  | cons f fields ih =>
    rw [List.forall_mem_cons] at hfields hpart
    cases fields with
    | nil =>
      rw [List.map_cons, List.map_nil, String.intercalate_singleton]
      exact level_of_plain hpart.1
    | cons g fields =>
      rw [List.map_cons, List.map_cons, String.intercalate_cons_cons, String.append_assoc]
      refine LevelIf.behind (LevelIf.behind_numberSign (ih hfields.2 hpart.2) ?_) hpart.1
      exact head?_intercalate (by simp)

end Texts

end SchemaLoom.Resolver
