/-
Fragments of different locations do not meet.

Every file is made of the fragments of its location alone, in their order, and of what existed
there.  So two streams that agree at every location (`Interleaves`) come to the same files or to
none, however the locations are interleaved.

Only the order of the files tells the streams apart: it is that in which each stream first turns
to a location (`FollowsStream`).  Which fault is reported may differ too, if there are several,
so nothing is said about that.
-/
import Mathlib.Data.List.Nodup
import SchemaLoom.Proofs.Workspace.Files

namespace SchemaLoom

namespace Artifact

variable {fs gs : List Fragment} {existing : List (String × String)} {files : List File}

/-! ### Interleavings

What is asked of two streams is asked location by location, so exchanging neighbours of different
locations is one way to interleave them (`interleaves_swap`).
-/

/-- The streams `fs` and `gs` have the same fragments for each location, in the same order. -/
def Interleaves (fs gs : List Fragment) : Prop :=
  ∀ location, addressedTo location fs = addressedTo location gs

/-- Neighbours of different locations may change places. -/
theorem interleaves_swap {f g : Fragment} (hapart : f.location ≠ g.location)
    (before after : List Fragment) :
    Interleaves (before ++ f :: g :: after) (before ++ g :: f :: after) := by
  intro location
  simp only [addressedTo, List.filter_append, List.filter_cons]
  by_cases hf : f.location = location
  · have hg : g.location ≠ location := fun hsame => hapart (hf.trans hsame.symm)
    simp [hf, hg]
  · simp [hf]

/-- A stream turns to a location if it has a fragment for it. -/
theorem mem_locations_iff {location : String} :
    location ∈ locations fs ↔ addressedTo location fs ≠ [] := by
  rw [locations, Text.mem_distinct, addressedTo, Ne, List.filter_eq_nil_iff]
  simp

theorem Interleaves.mem_locations (h : Interleaves fs gs) {location : String} :
    location ∈ locations fs ↔ location ∈ locations gs := by
  rw [mem_locations_iff, mem_locations_iff, h location]

/-! ### Files -/

/-- The files of a stream are there if each location has a body. -/
theorem exists_assemble_iff :
    (∃ files, (assemble fs existing).outcome = .ok files) ↔
      ∀ location ∈ locations fs, ∃ body,
        assembleBody location (existing.lookup location) (addressedTo location fs) = .ok body := by
  constructor
  · rintro ⟨files, hfiles⟩ location hlocation
    obtain ⟨file, -, -, hbody⟩ := exists_file hfiles hlocation
    exact ⟨file.body, hbody⟩
  · exact exists_assemble

/-- A file is among those of a stream if it is what the fragments of its location make. -/
theorem mem_assemble_iff (h : (assemble fs existing).outcome = .ok files) {f : File} :
    f ∈ files ↔ f.location ∈ locations fs ∧
      assembleBody f.location (existing.lookup f.location) (addressedTo f.location fs)
        = .ok f.body ∧
      f.replaceable = (addressedTo f.location fs).all (·.replaceable) := by
  constructor
  · exact of_mem_assemble h
  · rintro ⟨hlocation, hbody, hreplaceable⟩
    obtain ⟨other, hother, hhere, -⟩ := exists_file h hlocation
    obtain ⟨-, hotherbody, hotherreplaceable⟩ := of_mem_assemble h hother
    rw [hhere, hbody] at hotherbody
    rw [hhere, ← hreplaceable] at hotherreplaceable
    have hsame : f = other := by
      cases f
      cases other
      cases hhere
      cases hotherbody
      cases hotherreplaceable
      rfl
    exact hsame ▸ hother

/-- The files are those of the locations that `fs` turns to, one each and in the order in which it
first turns to them. -/
structure FollowsStream (fs : List Fragment) (files : List File) : Prop where
  complete : ∀ location, location ∈ files.map (·.location) ↔ ∃ f ∈ fs, f.location = location
  once : (files.map (·.location)).Nodup
  ordered : (files.map (·.location)).Pairwise fun a b =>
    (fs.map (·.location)).idxOf a < (fs.map (·.location)).idxOf b

theorem followsStream_assemble (h : (assemble fs existing).outcome = .ok files) :
    FollowsStream fs files where
  complete location := by
    rw [map_location_assemble h, locations, Text.mem_distinct, List.mem_map]
  once := nodup_locations h
  ordered := by
    rw [map_location_assemble h]
    exact Text.pairwise_idxOf_distinct _

/-- **What files come of a stream does not depend on how its locations are interleaved.** If one of
two streams that agree at every location is assembled, so is the other, and their files are the
same; each lists them in the order in which it first turns to their locations (`FollowsStream`). -/
theorem assemble_interleaved (h : Interleaves fs gs) (existing : List (String × String)) :
    ((∃ files, (assemble fs existing).outcome = .ok files) ↔
      ∃ files, (assemble gs existing).outcome = .ok files) ∧
    ∀ files files', (assemble fs existing).outcome = .ok files →
      (assemble gs existing).outcome = .ok files' →
      files.Perm files' ∧ FollowsStream fs files ∧ FollowsStream gs files' := by
  constructor
  · rw [exists_assemble_iff, exists_assemble_iff]
    refine forall_congr' fun location => ?_
    rw [h.mem_locations, h location]
  · intro files files' hfiles hfiles'
    have hnodup : files.Nodup := List.Nodup.of_map (·.location) (nodup_locations hfiles)
    have hnodup' : files'.Nodup := List.Nodup.of_map (·.location) (nodup_locations hfiles')
    refine ⟨(List.perm_ext_iff_of_nodup hnodup hnodup').2 fun f => ?_,
      followsStream_assemble hfiles, followsStream_assemble hfiles'⟩
    rw [mem_assemble_iff hfiles, mem_assemble_iff hfiles', h.mem_locations, h f.location]

/-- A document, a structured file and an edit of the document, one after the other. -/
def scatteredStream : List Fragment :=
  [.ofText "schema/a.graphql" "type A \x7b\n  x: Int @unique\n\x7d\n",
    .ofTree "a.yml" (.list [.int 1]),
    .ofEdit "schema/a.graphql" (.removeDirective "A" (some "x") "unique")]

/-- The same fragments with the structured file first. -/
def regroupedStream : List Fragment :=
  [.ofTree "a.yml" (.list [.int 1]),
    .ofText "schema/a.graphql" "type A \x7b\n  x: Int @unique\n\x7d\n",
    .ofEdit "schema/a.graphql" (.removeDirective "A" (some "x") "unique")]

theorem regroupedStream_same : ∃ files files',
    Interleaves scatteredStream regroupedStream ∧
      (assemble scatteredStream []).outcome = .ok files ∧
      (assemble regroupedStream []).outcome = .ok files' ∧ files.Perm files' ∧
      files.map (·.location) = ["schema/a.graphql", "a.yml"] ∧
      files'.map (·.location) = ["a.yml", "schema/a.graphql"] := by
  have hinterleaves : Interleaves scatteredStream regroupedStream :=
    interleaves_swap (by decide) [] _
  have hfiles : Outcome.Holds (assemble scatteredStream []).outcome fun files =>
      files.map (·.location) = ["schema/a.graphql", "a.yml"] := by
    decide +kernel
  obtain ⟨files, hfiles, hlocations⟩ := hfiles
  obtain ⟨hboth, hsame⟩ := assemble_interleaved hinterleaves []
  obtain ⟨files', hfiles'⟩ := hboth.1 ⟨files, hfiles⟩
  refine ⟨files, files', hinterleaves, hfiles, hfiles', (hsame files files' hfiles hfiles').1,
    hlocations, ?_⟩
  rw [map_location_assemble hfiles']
  decide

end Artifact

end SchemaLoom
