/-
Templates whose blocks are level.

Expressions and statements put plain words around what they are given, so their blocks are level
under the same condition.  A block adds an opening and a closing to what stands in it, and a map
literal adds nothing to its members.  A template is balanced just if the condition of its blocks
holds (`Template.balanced_iff`).

For each way to build a template there is a lemma that says under which condition it is level,
from the conditions of its parts; `Template.LevelIf` and `MembersLevelIf` are stated so that
these compose.  A proof about a request then follows the way the request is built.

Words are taken from literals by their characters (`plain_ofList`, `level_ofList`), so that
nothing has to be decoded.
-/
import SchemaLoom.Proofs.Resolver.Blocks
import SchemaLoom.Proofs.Resolver.Containment
import SchemaLoom.Proofs.Resolver.Lines

namespace SchemaLoom.Resolver

/-! ### Expressions and statements -/

section Texts

variable {s t : String} {P Q : Prop}

theorem plain_quoted : Plain (quoted s) ↔ Plain s := by
  unfold quoted
  simp only [plain_append, (by decide : Plain "\""), true_and, and_true]

theorem plain_input : Plain (input s) ↔ Plain s := by
  unfold input
  simp only [plain_append, (by decide : Plain "$ctx.args.input."), true_and]

theorem plain_argument : Plain (argument s) ↔ Plain s := by
  unfold argument
  simp only [plain_append, (by decide : Plain "$ctx.args."), true_and]

theorem plain_isGiven : Plain (isGiven s) ↔ Plain s := by
  unfold isGiven
  simp only [plain_append, (by decide : Plain "!$util.isNull("), (by decide : Plain ")"),
    true_and, and_true]

theorem plain_stored : Plain (stored s) ↔ Plain s := by
  unfold stored
  simp only [plain_append, (by decide : Plain "$util.dynamodb.toDynamoDB("),
    (by decide : Plain ")"), true_and, and_true]

theorem plain_orElse : Plain (orElse s t) ↔ Plain s ∧ Plain t := by
  unfold orElse
  simp only [plain_append, (by decide : Plain "$util.defaultIfNull("), (by decide : Plain ", "),
    (by decide : Plain ")"), true_and, and_true]

theorem plain_named : Plain (named s t) ↔ Plain s ∧ Plain t := by
  unfold named
  simp only [plain_append, plain_quoted, (by decide : Plain ": "), and_true]

theorem levelIf_quoted (h : LevelIf s P) : LevelIf (quoted s) P :=
  h.enclosed (by decide) (by decide) (by decide)

theorem levelIf_named (hname : LevelIf s P) (hvalue : LevelIf t Q) :
    LevelIf (named s t) (P ∧ Q) := by
  rw [named, String.append_assoc]
  refine (levelIf_quoted hname).append (hvalue.behind (by decide)) ?_
  rw [String.toList_append]
  exact (by decide : Clear (": ".toList ++ []))

theorem levelIf_member (hvalue : LevelIf t P) (hname : Plain s) : LevelIf (named s t) P :=
  (levelIf_named (level_of_plain hname) hvalue).congr (and_iff_right trivial)

theorem LevelIf.named (hname : LevelIf s P) (hvalue : Level t) : LevelIf (named s t) P :=
  (levelIf_named hname hvalue).congr (and_iff_left trivial)

theorem level_namedText (hname : Plain s) (htext : Plain t) : Level (named s (quoted t)) :=
  level_of_plain (plain_named.2 ⟨hname, plain_quoted.2 htext⟩)

theorem levelIf_inlineMap {α : Type} {as : List α} {member : α → String} {P : α → Prop}
    (h : ∀ a ∈ as, LevelIf (member a) (P a)) :
    LevelIf (inlineMap (as.map member)) (∀ a ∈ as, P a) :=
  (levelIf_intercalate (by decide) (by decide) h).enclosed (by decide) (by decide) (by decide)

theorem levelIf_inlineMap_single (h : LevelIf s P) : LevelIf (inlineMap [s]) P := by
  unfold inlineMap
  rw [String.intercalate_singleton]
  exact h.enclosed (by decide) (by decide) (by decide)

theorem levelIf_inlineMap_pair (hs : LevelIf s P) (ht : LevelIf t Q) :
    LevelIf (inlineMap [s, t]) (P ∧ Q) := by
  have hboth : LevelIf (s ++ (", " ++ t)) (P ∧ Q) := by
    refine hs.append (ht.behind (by decide)) ?_
    rw [String.toList_append]
    exact (by decide : Clear (", ".toList ++ []))
  unfold inlineMap
  rw [String.intercalate_cons_cons, String.intercalate_singleton]
  exact (String.append_assoc ▸ hboth : LevelIf (s ++ ", " ++ t) (P ∧ Q)).enclosed (by decide)
    (by decide) (by decide)

theorem blockMarks_set (rest : List Char) :
    blockMarks false ("#set( ".toList ++ rest) = blockMarks false rest := by
  simp [blockMarks, markAt, goesOnInRemark]

theorem blockMarks_if (rest : List Char) :
    blockMarks false ("#if( ".toList ++ rest) = .opening :: blockMarks false rest := by
  simp [blockMarks, markAt, goesOnInRemark]

theorem blockMarks_forEach (rest : List Char) :
    blockMarks false ("#foreach( ".toList ++ rest) = .opening :: blockMarks false rest := by
  simp [blockMarks, markAt, goesOnInRemark]

theorem levelIf_assign (htarget : Plain s) (hvalue : LevelIf t P) : LevelIf (assign s t) P := by
  obtain ⟨ms, hms, h⟩ :=
    (hvalue.behind (plain_append.2 ⟨htarget, (by decide : Plain " = ")⟩)).before
    (level_of_plain (by decide : Plain " )")) (by decide)
  refine ⟨ms, hms, fun rest hrest => ?_⟩
  rw [assign, String.append_assoc, String.append_assoc, String.append_assoc, String.toList_append,
    List.append_assoc, blockMarks_set, ← h rest hrest, String.append_assoc, String.append_assoc]

theorem levelIf_perform (h : LevelIf s P) : LevelIf (perform s) P :=
  h.enclosed (by decide) (by decide) (by decide)

theorem levelIf_put {target : String} (htarget : Plain target) (hname : LevelIf s P)
    (hvalue : LevelIf t Q) : LevelIf (put target s t) (P ∧ Q) := by
  have hboth : LevelIf (quoted s ++ (", " ++ t)) (P ∧ Q) := by
    refine (levelIf_quoted hname).append (hvalue.behind (by decide)) ?_
    rw [String.toList_append]
    exact (by decide : Clear (", ".toList ++ []))
  have hput : Plain (target ++ ".put(") := plain_append.2 ⟨htarget, by decide⟩
  have hcall := (hboth.behind hput).before (level_of_plain (by decide : Plain ")")) (by decide)
  rw [← String.append_assoc, ← String.append_assoc] at hcall
  exact levelIf_perform hcall

theorem level_assign (htarget : Plain s) (hvalue : Plain t) : Level (assign s t) :=
  levelIf_assign htarget (level_of_plain hvalue)

theorem level_put {target : String} (htarget : Plain target) (hname : Level s) (hvalue : Plain t) :
    Level (put target s t) :=
  (levelIf_put htarget hname (level_of_plain hvalue)).congr (and_iff_left trivial)

/-- A block on one line closes itself. -/
theorem levelIf_inlineBlock (hcondition : Plain s) (hbody : LevelIf t P) :
    LevelIf ("#if( " ++ s ++ " ) " ++ t ++ " #end") P := by
  obtain ⟨ms, hms, h⟩ := hbody.behind (plain_append.2 ⟨hcondition, (by decide : Plain " ) ")⟩)
  refine ⟨.opening :: (ms ++ [.closing]), hms.block, fun rest hrest => ?_⟩
  have hend : blockMarks false (" #end".toList ++ rest) = .closing :: blockMarks false rest := by
    have htext : " #end".toList ++ rest = ' ' :: '#' :: ("end".toList ++ rest) := rfl
    rw [htext, blockMarks, if_neg (by decide)]
    exact blockMarks_name (by decide) hrest.parted
  have hbody := h (" #end".toList ++ rest) (by decide : Clear (" #end".toList ++ []))
  simp only [String.toList_append, String.append_assoc, List.append_assoc] at hbody ⊢
  rw [blockMarks_if, hbody, hend]
  simp

end Texts

/-! ### Level templates -/

/-- Reads the marks of blocks in lines. -/
def blockReader : LineReader BlockMark where
  read line := blockMarks false line.toList
  read_shiftedLine line := by
    unfold shiftedLine
    split
    next hempty => rw [hempty]
    · rw [String.toList_append, blockMarks_append_of_not_mem (by decide)]
  read_comma line := by
    rw [String.toList_append, blockMarks_append (by decide)]
    cases endsInRemark false line.toList <;> simp [blockMarks]

theorem read_append (s t : String) :
    blockReader.read (s ++ t) = blockMarks false (s.toList ++ t.toList) :=
  congrArg (blockMarks false) String.toList_append

/-- Every block of the template is closed, and nothing else. -/
def Template.Balanced (t : Template) : Prop := depth 0 (blockMarks false t.text.toList) = some 0

/-- A remark ends with its line, so the marks of a text are those of its lines. -/
theorem blockMarks_text (t : Template) :
    blockMarks false t.text.toList = blockReader.readAll t := by
  induction t with
  | nil => rfl
  | cons line t ih =>
    have hbreak : ∀ inRemark, blockMarks inRemark ('\n' :: (Template.text t).toList)
        = blockMarks false (Template.text t).toList := by
      intro inRemark
      cases inRemark <;> simp [blockMarks, goesOnInRemark]
    have hline : (Template.text (line :: t)).toList
        = line.toList ++ '\n' :: (Template.text t).toList := by
      simp [Template.text_cons]
    rw [hline, blockMarks_append (by simp [Clear]; decide), hbreak, ih]
    rfl

/-- The blocks of `t` are level just if `P` holds. -/
def Template.LevelIf (t : Template) (P : Prop) : Prop := IsLevelIf (blockReader.readAll t) P

/-- **A template is balanced just if the condition of its blocks holds (`Template.LevelIf`).** -/
theorem Template.balanced_iff {t : Template} {P : Prop} (h : t.LevelIf P) : t.Balanced ↔ P := by
  rw [Template.Balanced, blockMarks_text]
  exact h.depth_eq_iff

/-- The blocks of `t` are level. -/
def Template.Level (t : Template) : Prop := t.LevelIf True

section Templates

variable {s t : Template} {P Q : Prop}

theorem Template.LevelIf.congr (h : t.LevelIf P) (himp : P ↔ Q) : t.LevelIf Q := propext himp ▸ h

theorem Template.level_nil : Template.Level [] := IsLevelIf.nil

theorem Template.levelIf_line {line : String} (h : Resolver.LevelIf line P) :
    Template.LevelIf [line] P := by
  obtain ⟨ms, hms, hmarks⟩ := h
  have hread : blockReader.read line = ms := by
    simpa [blockReader, blockMarks] using hmarks [] (by decide)
  rwa [Template.LevelIf, blockReader.readAll_singleton, hread]

/-- The words of a remark do not count. -/
theorem Template.level_remark {words : String} (hbreak : '\n' ∉ words.toList) :
    Template.Level [remark words] := by
  have hremark : ∀ cs : List Char, '\n' ∉ cs → blockMarks true cs = [] := by
    intro cs hcs
    induction cs with
    | nil => rfl
    | cons c cs ih =>
      rw [List.mem_cons, not_or] at hcs
      simp [blockMarks, goesOnInRemark, Ne.symm hcs.1, ih hcs.2]
  have hread : blockReader.read (remark words) = [] := by
    have hbehind : '\n' ∉ words.toList ++ " **".toList := by
      rw [List.mem_append, not_or]
      exact ⟨hbreak, by decide⟩
    simpa [blockReader, remark, blockMarks, markAt, goesOnInRemark] using hremark _ hbehind
  rw [Template.Level, Template.LevelIf, blockReader.readAll_singleton, hread]
  exact .nil

theorem Template.LevelIf.append (hs : s.LevelIf P) (ht : t.LevelIf Q) :
    Template.LevelIf (s ++ t) (P ∧ Q) := by
  rw [Template.LevelIf, blockReader.readAll_append]
  exact IsLevelIf.append hs ht

theorem Template.LevelIf.cons (ht : t.LevelIf Q) {line : String} (hline : Resolver.LevelIf line P) :
    Template.LevelIf (line :: t) (P ∧ Q) := (Template.levelIf_line hline).append ht

/-- What is level in front of a template does not change the condition. -/
theorem Template.Level.append (hs : s.Level) (ht : t.LevelIf P) : Template.LevelIf (s ++ t) P :=
  (Template.LevelIf.append hs ht).congr (and_iff_right trivial)

theorem Template.level_line {line : String} (hline : Resolver.Level line) : Template.Level [line] :=
  Template.levelIf_line hline

theorem Template.level_cons {line : String} (hline : Resolver.Level line) (ht : t.LevelIf P) :
    Template.LevelIf (line :: t) P := (Template.level_line hline).append ht

theorem Template.LevelIf.shifted (h : t.LevelIf P) : Template.LevelIf (shifted t) P := by
  rwa [Template.LevelIf, blockReader.readAll_shifted]

theorem Template.LevelIf.hanging (h : t.LevelIf P) : Template.LevelIf (hanging t) P := by
  rwa [Template.LevelIf, blockReader.readAll_hanging]

theorem Template.levelIf_flatMap {α : Type} {as : List α} {lines : α → Template} {P : α → Prop}
    (h : ∀ a ∈ as, (lines a).LevelIf (P a)) :
    Template.LevelIf (as.flatMap lines) (∀ a ∈ as, P a) := by
  induction as with
  | nil => exact Template.level_nil.congr (by simp)
  | cons a as ih =>
    rw [List.forall_mem_cons] at h
    rw [List.flatMap_cons, List.forall_mem_cons]
    exact h.1.append (ih h.2)

theorem Template.levelIf_map {α : Type} {as : List α} {line : α → String} {P : α → Prop}
    (h : ∀ a ∈ as, Resolver.LevelIf (line a) (P a)) :
    Template.LevelIf (as.map line) (∀ a ∈ as, P a) := by
  rw [List.map_eq_flatMap]
  exact Template.levelIf_flatMap fun a ha => Template.levelIf_line (h a ha)

section Blocks

variable {condition : String} (hcondition : Resolver.Level condition)

include hcondition

theorem exists_read_if : ∃ ms, IsLevelIf ms True ∧
    blockReader.read ("#if( " ++ condition ++ " )") = .opening :: ms := by
  obtain ⟨ms, hms, h⟩ := hcondition.before (level_of_plain (by decide : Plain " )")) (by decide)
  refine ⟨ms, hms, ?_⟩
  have hmarks := h [] (by decide)
  rw [List.append_nil, blockMarks, List.append_nil] at hmarks
  rw [String.append_assoc, ← hmarks, read_append]
  exact blockMarks_if _

theorem Template.levelIf_branch (hs : s.LevelIf P) (ht : t.LevelIf Q) :
    Template.LevelIf (branch condition s t) (P ∧ Q) := by
  obtain ⟨ms, hms, hif⟩ := exists_read_if hcondition
  have helse : blockReader.read "#else" = [] := by decide
  have hend : blockReader.read "#end" = [.closing] := by decide
  have hblock := ((hms.append (IsLevelIf.append hs ht)).congr (and_iff_right trivial)).block
  rw [Template.LevelIf, blockReader.readAll_branch, hif, helse, hend]
  simpa only [List.cons_append, List.nil_append, List.append_assoc] using hblock

theorem Template.levelIf_block (hs : s.LevelIf P) : Template.LevelIf (block condition s) P := by
  obtain ⟨ms, hms, hif⟩ := exists_read_if hcondition
  have hend : blockReader.read "#end" = [.closing] := by decide
  have hblock := ((hms.append hs).congr (and_iff_right trivial)).block
  rw [Template.LevelIf, blockReader.readAll_block, hif, hend]
  exact hblock

theorem Template.levelIf_whenever (hs : s.LevelIf P) : Template.LevelIf (whenever condition s) P :=
  Template.levelIf_block hcondition hs.shifted

theorem Template.levelIf_choose (hs : s.LevelIf P) (ht : t.LevelIf Q) :
    Template.LevelIf (choose condition s t) (P ∧ Q) :=
  Template.levelIf_branch hcondition hs.shifted ht.shifted

end Blocks

theorem Template.levelIf_forEach {item collection : String} (hitem : Plain item)
    (hcollection : Plain collection) (ht : t.LevelIf P) :
    Template.LevelIf (forEach item collection t) P := by
  have hhead : Plain (item ++ " in " ++ collection ++ " )") := by
    simp only [plain_append, hitem, hcollection, (by decide : Plain " in "),
      (by decide : Plain " )"), and_true]
  have hmarks := blockMarks_append_of_not_mem hhead []
  rw [List.append_nil] at hmarks
  have heach : blockReader.read ("#foreach( " ++ item ++ " in " ++ collection ++ " )")
      = [.opening] := by
    rw [String.append_assoc, String.append_assoc, String.append_assoc, read_append,
      blockMarks_forEach, ← String.append_assoc, ← String.append_assoc, hmarks, blockMarks]
  have hend : blockReader.read "#end" = [.closing] := by decide
  rw [Template.LevelIf, blockReader.readAll_forEach, heach, hend]
  exact IsLevelIf.block ht

/-! ### Map literals

The members of a map literal are level if each of them is, and the commas between them are part of
no mark.
-/

/-- The blocks of the members of a map literal are level just if `P` holds. -/
def MembersLevelIf (ms : List Template) (P : Prop) : Prop :=
  IsLevelIf (ms.flatMap blockReader.readAll) P

variable {ms : List Template}

theorem MembersLevelIf.congr (h : MembersLevelIf ms P) (himp : P ↔ Q) : MembersLevelIf ms Q :=
  propext himp ▸ h

theorem membersLevel_nil : MembersLevelIf [] True := IsLevelIf.nil

theorem MembersLevelIf.cons (h : MembersLevelIf ms Q) (ht : t.LevelIf P) :
    MembersLevelIf (t :: ms) (P ∧ Q) := by
  rw [MembersLevelIf, List.flatMap_cons]
  exact IsLevelIf.append ht h

theorem MembersLevelIf.line (h : MembersLevelIf ms Q) {line : String}
    (hline : Resolver.LevelIf line P) : MembersLevelIf ([line] :: ms) (P ∧ Q) :=
  h.cons (Template.levelIf_line hline)

theorem Template.levelIf_mapping {lead tail : String} (hlead : Resolver.Level lead)
    (htail : Plain tail)
    (h : MembersLevelIf ms P) : Template.LevelIf (mapping lead ms tail) P := by
  have hopening := Template.levelIf_line
    (hlead.before (level_of_plain (by decide : Plain "\x7b")) (by decide))
  have hclosing := Template.levelIf_line
    (level_of_plain (plain_append.2 ⟨(by decide : Plain "\x7d"), htail⟩))
  rw [Template.LevelIf, blockReader.readAll_singleton] at hopening hclosing
  rw [Template.LevelIf, blockReader.readAll_mapping]
  exact ((hopening.append h).append hclosing).congr (by simp)

theorem Template.levelIf_submap {name : String} (hname : Plain name) {α : Type} {as : List α}
    {member : α → String} {P : α → Prop} (h : ∀ a ∈ as, Resolver.LevelIf (member a) (P a)) :
    Template.LevelIf (submap name (as.map member)) (∀ a ∈ as, P a) := by
  have hlead : Plain (quoted name ++ ": ") := plain_append.2 ⟨plain_quoted.2 hname, by decide⟩
  refine Template.levelIf_mapping (level_of_plain hlead) (by decide) ?_
  have hmembers := Template.levelIf_map h
  simpa only [Template.LevelIf, LineReader.readAll, MembersLevelIf, List.flatMap_map,
    List.flatMap_singleton] using hmembers

theorem Template.levelIf_request {version operation : String} (hversion : Plain version)
    (hoperation : Plain operation) (h : MembersLevelIf ms P) :
    Template.LevelIf (request version operation ms) P := by
  have hall := (h.line (level_namedText (by decide : Plain "operation") hoperation)).line
    (level_namedText (by decide : Plain "version") hversion)
  rw [true_and, true_and] at hall
  exact Template.levelIf_mapping (level_of_plain (by decide)) (by decide) hall

end Templates

end SchemaLoom.Resolver
