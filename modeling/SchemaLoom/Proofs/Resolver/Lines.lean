/-
What is read off the lines of a template.

Templates are put together from lines that are moved to the right and from members that commas
are put behind.  A reader that minds neither (`LineReader`) reads from a block what it reads from
the lines of the block, and from a map literal what it reads from the members.

So what a template is read as follows the way it is built, with one lemma for each way.  Two
readers are in use: one reads the marks of blocks, the other the references that markers store
and compare.
-/
import SchemaLoom.Resolver.Template

namespace SchemaLoom.Resolver

/-- Something that is read off single lines, however far they are moved to the right and whether or
not a comma follows. -/
structure LineReader (α : Type) where
  read : String → List α
  read_shiftedLine : ∀ line, read (shiftedLine line) = read line
  read_comma : ∀ line, read (line ++ ",") = read line

namespace LineReader

variable {α : Type} (r : LineReader α)

/-- What is read off a template. -/
def readAll (t : Template) : List α := t.flatMap r.read

theorem readAll_nil : r.readAll [] = [] := rfl

theorem readAll_cons (line : String) (t : Template) :
    r.readAll (line :: t) = r.read line ++ r.readAll t := List.flatMap_cons

theorem readAll_append (s t : Template) : r.readAll (s ++ t) = r.readAll s ++ r.readAll t :=
  List.flatMap_append

theorem readAll_singleton (line : String) : r.readAll [line] = r.read line :=
  List.append_nil (r.read line)

theorem readAll_flatMap {β : Type} (bs : List β) (lines : β → Template) :
    r.readAll (bs.flatMap lines) = bs.flatMap fun b => r.readAll (lines b) :=
  List.flatMap_assoc

theorem readAll_shifted (t : Template) : r.readAll (shifted t) = r.readAll t := by
  simp only [readAll, shifted, List.flatMap_map, r.read_shiftedLine]

theorem readAll_hanging (t : Template) : r.readAll (hanging t) = r.readAll t := by
  cases t with
  | nil => rfl
  | cons line t => rw [hanging, readAll_cons, readAll_cons, r.read_shiftedLine]

theorem readAll_endedBy (t : Template) : r.readAll (endedBy "," t) = r.readAll t := by
  induction t with
  | nil => rfl
  | cons line t ih =>
    cases t with
    | nil => rw [endedBy, readAll_singleton, readAll_singleton, r.read_comma]
    | cons next t =>
      rw [endedBy, readAll_cons, readAll_cons, ih]
      exact List.cons_ne_nil next t

theorem readAll_members (ms : List Template) : r.readAll (members ms) = ms.flatMap r.readAll := by
  induction ms with
  | nil => rfl
  | cons m ms ih =>
    cases ms with
    | nil => exact (List.flatMap_singleton r.readAll m).symm
    | cons next ms =>
      rw [members, readAll_append, readAll_endedBy, ih, ← List.flatMap_cons]
      exact List.cons_ne_nil next ms

theorem readAll_mapping (lead : String) (ms : List Template) (tail : String) :
    r.readAll (mapping lead ms tail)
      = r.read (lead ++ "\x7b") ++ ms.flatMap r.readAll ++ r.read ("\x7d" ++ tail) := by
  rw [mapping, readAll_append, readAll_cons, readAll_shifted, readAll_members, readAll_singleton]

theorem readAll_block (condition : String) (body : Template) :
    r.readAll (block condition body)
      = r.read ("#if( " ++ condition ++ " )") ++ r.readAll body ++ r.read "#end" := by
  rw [block, readAll_append, readAll_cons, readAll_singleton]

theorem readAll_whenever (condition : String) (body : Template) :
    r.readAll (whenever condition body)
      = r.read ("#if( " ++ condition ++ " )") ++ r.readAll body ++ r.read "#end" := by
  rw [whenever, readAll_block, readAll_shifted]

theorem readAll_branch (condition : String) (body otherwise : Template) :
    r.readAll (branch condition body otherwise)
      = r.read ("#if( " ++ condition ++ " )") ++ r.readAll body
        ++ (r.read "#else" ++ r.readAll otherwise ++ r.read "#end") := by
  rw [branch, readAll_append, List.cons_append, readAll_cons, readAll_append, readAll_cons,
    readAll_singleton]
  simp only [List.append_assoc]

theorem readAll_choose (condition : String) (body otherwise : Template) :
    r.readAll (choose condition body otherwise)
      = r.read ("#if( " ++ condition ++ " )") ++ r.readAll body
        ++ (r.read "#else" ++ r.readAll otherwise ++ r.read "#end") := by
  rw [choose, readAll_branch, readAll_shifted, readAll_shifted]

theorem readAll_forEach (item collection : String) (body : Template) :
    r.readAll (forEach item collection body)
      = r.read ("#foreach( " ++ item ++ " in " ++ collection ++ " )") ++ r.readAll body
        ++ r.read "#end" := by
  rw [forEach, readAll_append, readAll_cons, readAll_shifted, readAll_singleton]

end LineReader

end SchemaLoom.Resolver
