/-
The components and the medium of a location.

A location that joins file names by slashes has them for its components
(`components_intercalate`), so no two of them have the same components.  What a file name is says
`IsFileName`: it is not empty, it leads nowhere else, and it has no slash.

A location that ends with a point and an extension has that extension for its suffix, unless the
point leads its last component (`suffix_append`).  From that it follows what the fragments of
such a location are put together as, or that they are a mere text.
-/
import SchemaLoom.Artifact.Fragment

namespace SchemaLoom.Artifact

open Text

/-! ### Components

A location that is made of file names is divided into these again, as none of them holds a slash.
-/

theorem splitChars_of_not_mem {separator : Char} {part : List Char} (hpart : separator ∉ part) :
    splitChars separator part = [part] := by
  induction part with
  | nil => rfl
  | cons c part ih =>
    rw [List.mem_cons, not_or] at hpart
    rw [splitChars, if_neg (Ne.symm hpart.1), ih hpart.2]

theorem splitChars_append_cons {separator : Char} {part : List Char} (hpart : separator ∉ part)
    (cs : List Char) :
    splitChars separator (part ++ separator :: cs) = part :: splitChars separator cs := by
  induction part with
  | nil => simp [splitChars]
  | cons c part ih =>
    rw [List.mem_cons, not_or] at hpart
    rw [List.cons_append, splitChars, if_neg (Ne.symm hpart.1), ih hpart.2]

/-- **Parts that are joined by a separator are what is between separators.** -/
theorem splitAtChar_intercalate {separator : Char} {parts : List String} (hsome : parts ≠ [])
    (h : ∀ part ∈ parts, separator ∉ part.toList) :
    splitAtChar separator ((String.singleton separator).intercalate parts) = parts := by
  induction parts with
  | nil => exact absurd rfl hsome
  | cons part parts ih =>
    rw [List.forall_mem_cons] at h
    cases parts with
    | nil => simp [splitAtChar, splitChars_of_not_mem h.1]
    | cons next parts =>
      have hrest := ih (List.cons_ne_nil next parts) h.2
      have htext : ((String.singleton separator).intercalate (part :: next :: parts)).toList
          = part.toList ++
            separator :: ((String.singleton separator).intercalate (next :: parts)).toList := by
        rw [String.intercalate_cons_cons]
        simp
      rw [splitAtChar] at hrest
      rw [splitAtChar, htext, splitChars_append_cons h.1, List.map_cons, hrest,
        String.ofList_toList]

theorem exists_splitChars_append_cons {separator : Char} {part : List Char}
    (hpart : separator ∉ part)
    (cs : List Char) :
    ∃ front ≠ [], splitChars separator (cs ++ separator :: part) = front ++ [part] := by
  induction cs with
  | nil => exact ⟨[[]], List.cons_ne_nil _ _, by simp [splitChars, splitChars_of_not_mem hpart]⟩
  | cons c cs ih =>
    obtain ⟨front, hsome, hsplit⟩ := ih
    obtain ⟨first, rest, rfl⟩ := List.exists_cons_of_ne_nil hsome
    rw [List.cons_append, splitChars, hsplit]
    split
    · exact ⟨[] :: first :: rest, List.cons_ne_nil _ _, rfl⟩
    · exact ⟨(c :: first) :: rest, List.cons_ne_nil _ _, rfl⟩

/-- What stands behind the last separator is the last part. -/
theorem getLast?_splitAtChar {separator : Char} {part : String} (hpart : separator ∉ part.toList)
    (s : String) :
    (splitAtChar separator (s ++ String.singleton separator ++ part)).getLast? = some part := by
  have htext : (s ++ String.singleton separator ++ part).toList
      = s.toList ++ separator :: part.toList := by
    simp
  obtain ⟨front, -, hsplit⟩ := exists_splitChars_append_cons hpart s.toList
  rw [splitAtChar, htext, hsplit, List.map_append, List.map_singleton, String.ofList_toList,
    List.getLast?_concat]

/-- The text `name` is the name of a file or a folder in the folder around it. -/
structure IsFileName (name : String) : Prop where
  notEmpty : name ≠ ""
  notHere : name ≠ "."
  notBack : name ≠ ".."
  noSlash : '/' ∉ name.toList

/-- The text `location` joins file names by slashes, at least one. -/
def IsLocation (location : String) : Prop :=
  ∃ names ≠ [], (∀ n ∈ names, IsFileName n) ∧ location = "/".intercalate names

/-- **The components of file names joined by slashes are the file names.** -/
theorem components_intercalate {names : List String} (hsome : names ≠ [])
    (h : ∀ n ∈ names, IsFileName n) : components ("/".intercalate names) = names := by
  have hsplit : splitAtChar '/' ("/".intercalate names) = names :=
    splitAtChar_intercalate hsome fun n hn => (h n hn).noSlash
  rw [components, hsplit, List.filter_eq_self]
  intro n hn
  simp [(h n hn).notEmpty, (h n hn).notHere]

theorem IsLocation.isFileName {location : String} (h : IsLocation location) :
    ∀ n ∈ components location, IsFileName n := by
  obtain ⟨names, hsome, hnames, rfl⟩ := h
  rwa [components_intercalate hsome hnames]

/-- Locations with the same components are the same. -/
theorem IsLocation.eq_of_components {location other : String} (h : IsLocation location)
    (hother : IsLocation other) (hsame : components location = components other) :
    location = other := by
  obtain ⟨names, hsome, hnames, rfl⟩ := h
  obtain ⟨others, hsome', hnames', rfl⟩ := hother
  rw [components_intercalate hsome hnames, components_intercalate hsome' hnames'] at hsame
  rw [hsame]

/-- A location does not begin with a slash. -/
theorem IsLocation.head {location : String} (h : IsLocation location) :
    location.toList.head? ≠ some '/' := by
  obtain ⟨names, hsome, hnames, rfl⟩ := h
  cases names with
  | nil => exact absurd rfl hsome
  | cons n names =>
    obtain ⟨hempty, -, -, hslash⟩ := hnames n List.mem_cons_self
    have htext : ∃ rest, ("/".intercalate (n :: names)).toList = n.toList ++ rest := by
      cases names with
      | nil => exact ⟨[], by simp⟩
      | cons m names =>
        rw [String.intercalate_cons_cons, String.append_assoc, String.toList_append]
        exact ⟨_, rfl⟩
    obtain ⟨rest, htext⟩ := htext
    rw [htext]
    cases hchars : n.toList with
    | nil => exact absurd (String.toList_eq_nil_iff.1 hchars) hempty
    | cons c cs =>
      rw [hchars, List.mem_cons, not_or] at hslash
      simpa using Ne.symm hslash.1

/-! ### Last components -/

/-- What ends a text without a separator ends its last part. -/
theorem getLast?_splitChars_append (separator : Char) (cs : List Char) {ending : List Char}
    (hending : separator ∉ ending) :
    ∃ part, (splitChars separator (cs ++ ending)).getLast? = some (part ++ ending) := by
  induction cs with
  | nil => exact ⟨[], by simp [splitChars_of_not_mem hending]⟩
  | cons c cs ih =>
    obtain ⟨part, hlast⟩ := ih
    rw [List.cons_append, splitChars]
    split
    · refine ⟨part, ?_⟩
      rw [List.getLast?_cons, hlast]
      rfl
    · cases hparts : splitChars separator (cs ++ ending) with
      | nil => exact absurd hparts (splitChars_ne_nil separator _)
      | cons first parts =>
        rw [hparts] at hlast
        cases parts with
        | nil =>
          cases hlast
          exact ⟨c :: part, rfl⟩
        | cons second parts => exact ⟨part, by simpa using hlast⟩

/-- The last component of a location that ends with a point and an extension ends likewise. -/
theorem exists_fileName_append (stem : String) {ending : String}
    (hslash : '/' ∉ ending.toList) (hsome : ending.toList ≠ []) :
    ∃ part : List Char,
      (fileName (stem ++ "." ++ ending)).toList = part ++ '.' :: ending.toList := by
  have hnone : '/' ∉ '.' :: ending.toList := by simpa using hslash
  obtain ⟨part, hlast⟩ := getLast?_splitChars_append '/' stem.toList hnone
  obtain ⟨others, hparts⟩ := List.getLast?_eq_some_iff.1 hlast
  have htext : (stem ++ "." ++ ending).toList = stem.toList ++ '.' :: ending.toList := by
    simp
  have hcounts : String.ofList (part ++ '.' :: ending.toList) ≠ "" ∧
      String.ofList (part ++ '.' :: ending.toList) ≠ "." := by
    constructor
    · intro hempty
      have := congrArg String.toList hempty
      simp at this
    · intro hpoint
      have hlength := congrArg (fun s => s.toList.length) hpoint
      have hlong := List.length_pos_iff.2 hsome
      simp at hlength
      omega
  refine ⟨part, ?_⟩
  rw [fileName, components, splitAtChar, htext, hparts, List.map_append, List.filter_append,
    List.map_singleton, List.filter_cons_of_pos (by simpa using hcounts), List.filter_nil,
    List.getLastD_concat, String.toList_ofList]

/-- The suffix of a location whose last component ends with a point and an extension is that, unless
the point leads. -/
theorem suffix_of_fileName {location ending : String} {part : List Char}
    (hname : (fileName location).toList = part ++ '.' :: ending.toList)
    (hpoint : '.' ∉ ending.toList) (hsome : ending.toList ≠ []) :
    suffix location = if part = [] then "" else String.ofList ('.' :: ending.toList) := by
  have htaken : ((part ++ '.' :: ending.toList).reverse.takeWhile (· ≠ '.')).reverse
      = ending.toList := by
    rw [List.reverse_append, List.reverse_cons, List.append_assoc, List.takeWhile_append_of_pos]
    · simp
    · intro c hc
      refine decide_eq_true fun heq => hpoint ?_
      rwa [heq, List.mem_reverse] at hc
  have hleads : (ending.toList.isEmpty = true ∨
      (part ++ '.' :: ending.toList).length ≤ ending.toList.length + 1) ↔ part = [] := by
    rw [List.isEmpty_iff, or_iff_right hsome, List.length_append, List.length_cons,
      ← List.length_eq_zero_iff]
    omega
  unfold suffix
  rw [hname]
  dsimp only
  rw [htaken]
  simp only [hleads]

/-- **A location that ends with a point and an extension has that for its suffix, or none.** -/
theorem suffix_append (stem ending : String) (hslash : '/' ∉ ending.toList)
    (hpoint : '.' ∉ ending.toList) (hsome : ending.toList ≠ []) :
    suffix (stem ++ "." ++ ending) = "" ∨
      suffix (stem ++ "." ++ ending) = String.ofList ('.' :: ending.toList) := by
  obtain ⟨part, hname⟩ := exists_fileName_append stem hslash hsome
  rw [suffix_of_fileName hname hpoint hsome]
  split
  · exact Or.inl rfl
  · exact Or.inr rfl

/-! ### Media -/

/-- The text `name` ends like the name of a schema document. -/
def IsSchemaName (name : String) : Prop := ∃ stem, name = stem ++ ".graphql" ∨ name = stem ++ ".gql"

/-- A location that ends like a schema document holds one, or a mere text if the point leads. -/
theorem medium_of_isSchemaName {name : String} (h : IsSchemaName name) (folder : String) :
    medium (folder ++ name) = .sdl ∨ medium (folder ++ name) = .text := by
  have hmedium : ∀ stem ending : String, '/' ∉ ending.toList → '.' ∉ ending.toList →
      ending.toList ≠ [] → (ending = "graphql" ∨ ending = "gql") →
      medium (folder ++ (stem ++ ("." ++ ending))) = .sdl ∨
        medium (folder ++ (stem ++ ("." ++ ending))) = .text := by
    intro stem ending hslash hpoint hsome hending
    have hsuffix := suffix_append (folder ++ stem) ending hslash hpoint hsome
    simp only [String.append_assoc] at hsuffix
    unfold medium
    rcases hsuffix with hnone | hsuffix
    · exact Or.inr (by simp [hnone])
    · refine Or.inl ?_
      rw [hsuffix]
      rcases hending with rfl | rfl <;> decide
  obtain ⟨stem, rfl | rfl⟩ := h
  · exact hmedium stem "graphql" (by decide) (by decide) (by decide) (Or.inl rfl)
  · exact hmedium stem "gql" (by decide) (by decide) (by decide) (Or.inr rfl)

/-- A location that ends like a template holds a text. -/
theorem medium_template (stem : String) : medium (stem ++ ".vtl") = .text := by
  have hsuffix := suffix_append stem "vtl" (by decide) (by decide) (by decide)
  have hsame : stem ++ "." ++ "vtl" = stem ++ ".vtl" := by
    rw [String.append_assoc]
    rfl
  rw [hsame] at hsuffix
  unfold medium
  rcases hsuffix with hnone | hsuffix
  · simp [hnone]
  · rw [hsuffix]
    decide

/-- A location that ends like a structured text holds one, or a mere text if the point leads. -/
theorem medium_structured (stem : String) : medium (stem ++ ".yml") ≠ .sdl := by
  have hsuffix := suffix_append stem "yml" (by decide) (by decide) (by decide)
  have hsame : stem ++ "." ++ "yml" = stem ++ ".yml" := by
    rw [String.append_assoc]
    rfl
  rw [hsame] at hsuffix
  unfold medium
  rcases hsuffix with hnone | hsuffix
  · simp [hnone]
  · rw [hsuffix]
    decide

theorem medium_structured_of {stem kind ending : String} (h : kind ++ ".yml" = ending) :
    medium (stem ++ ending) ≠ .sdl := by
  rw [← h, ← String.append_assoc]
  exact medium_structured (stem ++ kind)

end SchemaLoom.Artifact
