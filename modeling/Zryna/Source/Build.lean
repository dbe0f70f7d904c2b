import Mathlib.Algebra.BigOperators.Group.List.Basic
import Zryna.Foundation.OrderedMap
import Zryna.Source.Positions
import Zryna.SourcePath

/-!
# Building source maps

`build` sorts its inputs by path, validates them, and adds them one by one, with a check for
collisions and a running total of bytes. What it answers is a function of the sorted inputs
(`outcome`): `refusal` is the first pass and `stops` the second.

The sort is stable, so inputs with the same path stay in the order in which they came, and the first
of them is counted before the second one is found to collide. Whether this count is over the limit
can depend on that order: `Straddles` says when.
-/

namespace Zryna.SourceBuild

open List

/-- Maximum aggregate UTF-8 bytes in one source map. -/
def maxSourceBytes : ℕ := 64 * 1024 * 1024

/-! ### The code -/

/-- One unverified source-map input. -/
structure SourceFileInput where
  path : String
  text : String
deriving DecidableEq

/-- The files of a source map, with the table of their portable identities. -/
structure BuiltSources where
  id : ℕ
  files : List SourceFile
  identities : OrderedMap String FileId

/-- Finds a file by a previously normalized path. -/
def BuiltSources.fileId (sources : BuiltSources) (path : NormalizedSourcePath) : Option FileId :=
  sources.identities.get? path.portableIdentity

section

variable (input : SourceFileInput)

/-- The first pass over one input. -/
def normalize : Except SourceError (NormalizedSourcePath × String) := do
  let path ← NormalizedSourcePath.new input.path
  let bytes := utf8Length input.text.toList
  if bytes > maxSourceFileBytes then
    .error ⟨"ZRYNA-S1003", some path.asStr,
      s!"source file contains {bytes} UTF-8 bytes; the limit is {maxSourceFileBytes}",
      "split or reduce the source file before analysis"⟩
  .ok (path, input.text)

/-- The files that have been added so far. -/
structure Building where
  totalBytes : ℕ
  identities : OrderedMap String FileId
  files : List SourceFile

/-- The second pass over one file. -/
def addFile (sourceMapId : ℕ) (state : Building) (file : NormalizedSourcePath × String) :
    Except SourceError Building :=
  let (path, text) := file
  let identity := path.portableIdentity
  match (state.identities.get? identity).bind fun id => state.files[id.index]? with
  | some existing =>
    .error ⟨"ZRYNA-S1004", some path.asStr,
      s!"source path collides with '{existing.path}' under the portable path identity",
      "use source paths that remain unique when ASCII case is ignored"⟩
  | none =>
    let totalBytes := state.totalBytes + utf8Length text.toList
    if totalBytes ≥ 2 ^ 64 then
      .error ⟨"ZRYNA-S1005", none, "aggregate source size overflowed the supported range",
        "reduce the source set before analysis"⟩
    else if totalBytes > maxSourceBytes then
      .error ⟨"ZRYNA-S1005", none,
        s!"source map contains {totalBytes} UTF-8 bytes; the limit is {maxSourceBytes}",
        "reduce the source set before analysis"⟩
    else if state.files.length ≥ 2 ^ 32 then
      .error ⟨"ZRYNA-S1002", none, "source file count exceeds the supported identifier range",
        "reduce the source set before analysis"⟩
    else do
      let id : FileId := ⟨sourceMapId, state.files.length⟩
      let _ ← lineStarts text
      .ok ⟨totalBytes, state.identities.insert identity id,
        state.files ++ [⟨id, path.asStr, text⟩]⟩

/-- Builds a source map and assigns stable dense identifiers by path order. The identity of the map
is the next one of the process, if there is one left. -/
def build (sourceMapId : Option ℕ) (inputs : List SourceFileInput) :
    Except SourceError BuiltSources := do
  if inputs.length > maxSourceFiles then
    .error ⟨"ZRYNA-S1002", none,
      s!"source map contains {inputs.length} files; the limit is {maxSourceFiles}",
      "reduce the source set before analysis"⟩
  let normalized ← (inputs.mergeSort fun left right => left.path ≤ right.path).mapM normalize
  let normalized := normalized.mergeSort fun left right => left.1 ≤ right.1
  match sourceMapId with
  | none =>
    .error ⟨"ZRYNA-S1010", none, "source-map identity space is exhausted",
      "restart the compiler process before creating another source map"⟩
  | some id =>
    let built ← normalized.foldlM (addFile id) ⟨0, .empty, []⟩
    .ok ⟨id, built.files, built.identities⟩

/-! ### What it answers -/

/-- The code and the path of an error, or the files and what paths lead to, up to the identity of
the map. -/
def summary : Except SourceError BuiltSources →
    Except (String × Option String)
      (List (ℕ × String × String) × (NormalizedSourcePath → Option ℕ))
  | .error error => .error (error.code, error.path)
  | .ok sources => .ok (sources.files.map fun file => (file.id.index, file.path, file.text),
    fun path => (sources.fileId path).map FileId.index)

def SourceFileInput.size : ℕ := utf8Length input.text.toList

def SourceFileInput.identity : String :=
  String.ofList (toAsciiLowercase input.path.toList)

def totalSize (inputs : List SourceFileInput) : ℕ := (inputs.map SourceFileInput.size).sum

/-- Why the first pass refuses an input. -/
def refusal : Option (String × Option String) :=
  match validateSourcePath input.path with
  | .error error => some (error.code, error.path)
  | .ok () =>
    if input.size > maxSourceFileBytes then some ("ZRYNA-S1003", some input.path) else none

end

/-- Where the second pass stops, behind inputs that it has added. -/
def stops : (added inputs : List SourceFileInput) → Option (String × Option String)
  | _, [] => none
  | added, input :: inputs =>
    if input.identity ∈ added.map SourceFileInput.identity then
      some ("ZRYNA-S1004", some input.path)
    else if totalSize added + input.size > maxSourceBytes then some ("ZRYNA-S1005", none)
    else stops (added ++ [input]) inputs

/-- The files out of sorted inputs. -/
def listing (inputs : List SourceFileInput) : List (ℕ × String × String) :=
  inputs.mapIdx fun i input => (i, input.path, input.text)

/-- Where an identity stands among inputs. -/
def position (inputs : List SourceFileInput) (identity : String) : Option ℕ :=
  inputs.findIdx? fun input => input.identity = identity

/-- What is answered for sorted inputs. -/
def outcome (sorted : List SourceFileInput) : Except (String × Option String)
    (List (ℕ × String × String) × (NormalizedSourcePath → Option ℕ)) :=
  match sorted.findSome? refusal with
  | some error => .error error
  | none =>
    match stops [] sorted with
    | some error => .error error
    | none => .ok (listing sorted, fun path => position sorted path.portableIdentity)

/-- A state of the second pass is the one of inputs that were added. -/
structure Holds (id : ℕ) (added : List SourceFileInput) (state : Building) : Prop where
  totalBytes : state.totalBytes = totalSize added
  files : state.files = added.mapIdx fun i input => ⟨⟨id, i⟩, input.path, input.text⟩
  identities : ∀ identity,
    state.identities.get? identity = (position added identity).map fun i => ⟨id, i⟩

variable {inputs added rest xs ys : List SourceFileInput} {id : ℕ} {state : Building}
  {files : List (NormalizedSourcePath × String)} {other : SourceFileInput}

theorem position_eq_none {identity : String} :
    position inputs identity = none ↔ identity ∉ inputs.map SourceFileInput.identity := by
  rw [position, findIdx?_eq_none_iff]
  simp

theorem position_concat {input : SourceFileInput}
    (h : input.identity ∉ inputs.map SourceFileInput.identity) (identity : String) :
    position (inputs ++ [input]) identity
      = if identity = input.identity then some inputs.length else position inputs identity := by
  rw [position, findIdx?_append, findIdx?_singleton]
  by_cases heq : identity = input.identity
  · have hnone : inputs.findIdx? (fun input => input.identity = identity) = none :=
      position_eq_none.mpr (heq ▸ h)
    rw [if_pos (decide_eq_true heq.symm), if_pos heq, hnone, Option.none_or, Option.map_some,
      Nat.zero_add]
  · rw [if_neg (by simpa using Ne.symm heq), if_neg heq, Option.map_none, Option.or_none]
    rfl

theorem totalSize_append (inputs inputs' : List SourceFileInput) :
    totalSize (inputs ++ inputs') = totalSize inputs + totalSize inputs' := by
  rw [totalSize, map_append, sum_append]
  rfl

def Validated (input : SourceFileInput) (file : NormalizedSourcePath × String) : Prop :=
  file.1.asStr = input.path ∧ file.2 = input.text ∧ input.size ≤ maxSourceFileBytes

theorem normalize_eq (input : SourceFileInput) : match refusal input with
    | some stop => ∃ error, normalize input = .error error ∧ (error.code, error.path) = stop
    | none => ∃ file, normalize input = .ok file ∧ Validated input file := by
  unfold normalize refusal
  cases hvalid : validateSourcePath input.path with
  | error error =>
    have hnew : NormalizedSourcePath.new input.path = .error error := by
      unfold NormalizedSourcePath.new
      split
      · next hok => cases hvalid.symm.trans hok
      · next error' herror => rw [Except.error.inj (herror.symm.trans hvalid)]
    rw [hnew]
    exact ⟨error, rfl, rfl⟩
  | ok =>
    have hnew : NormalizedSourcePath.new input.path = .ok ⟨input.path, hvalid⟩ := by
      unfold NormalizedSourcePath.new
      split
      · rfl
      · next error herror => cases hvalid.symm.trans herror
    rw [hnew]
    have hinput : utf8Length input.text.toList = input.size := rfl
    by_cases hlarge : input.size > maxSourceFileBytes
    · rw [if_pos hlarge]
      refine ⟨⟨"ZRYNA-S1003", some input.path,
        s!"source file contains {input.size} UTF-8 bytes; the limit is {maxSourceFileBytes}",
        "split or reduce the source file before analysis"⟩, ?_, rfl⟩
      show (if input.size > maxSourceFileBytes then _ else _) = _
      rw [if_pos hlarge]
      rfl
    · rw [if_neg hlarge]
      refine ⟨(⟨input.path, hvalid⟩, input.text), ?_, rfl, rfl, Nat.not_lt.mp hlarge⟩
      show (if input.size > maxSourceFileBytes then _ else _) = _
      rw [if_neg hlarge]

theorem Holds.get? (h : Holds id added state) (identity : String) :
    ((state.identities.get? identity).bind fun id => state.files[id.index]?)
      = (position added identity).bind fun i => state.files[i]? := by
  rw [h.identities, Option.bind_map]
  rfl

/-- Adding a file stops as `stops` says, or leads to the state with the file added. -/
theorem Holds.addFile (h : Holds id added state) {input : SourceFileInput}
    {file : NormalizedSourcePath × String} (hfile : Validated input file)
    (hlength : added.length < maxSourceFiles) (hsize : totalSize added ≤ maxSourceBytes) :
    if input.identity ∈ added.map SourceFileInput.identity then
      ∃ error, SourceBuild.addFile id state file = .error error ∧ error.code = "ZRYNA-S1004"
        ∧ error.path = some input.path
    else if totalSize added + input.size > maxSourceBytes then
      ∃ error, SourceBuild.addFile id state file = .error error ∧ error.code = "ZRYNA-S1005"
        ∧ error.path = none
    else ∃ state', SourceBuild.addFile id state file = .ok state'
      ∧ Holds id (added ++ [input]) state' := by
  obtain ⟨path, text⟩ := file
  obtain ⟨hpath, rfl, hmax⟩ := hfile
  have hidentity : path.portableIdentity = input.identity := by
    rw [SourceFileInput.identity, ← hpath]
    rfl
  have hfiles : state.files.length = added.length := by rw [h.files, length_mapIdx]
  unfold SourceBuild.addFile
  dsimp only
  have hinput : utf8Length input.text.toList = input.size := rfl
  rw [h.get?, hidentity, h.totalBytes, hfiles, hinput]
  by_cases hmem : input.identity ∈ added.map SourceFileInput.identity
  · rw [if_pos hmem]
    obtain ⟨i, hi⟩ := Option.ne_none_iff_exists'.mp (mt position_eq_none.mp (not_not.mpr hmem))
    have hlt : i < state.files.length :=
      hfiles ▸ (findIdx?_eq_some_iff_findIdx_eq.mp hi).1
    rw [hi, Option.bind_some, getElem?_eq_getElem hlt]
    exact ⟨_, rfl, rfl, congrArg some hpath⟩
  rw [if_neg hmem, position_eq_none.mpr hmem]
  dsimp only [Option.bind_none]
  have hsmall : ¬totalSize added + input.size ≥ 2 ^ 64 := by
    change input.size ≤ 2 * 1024 * 1024 at hmax
    change totalSize added ≤ 64 * 1024 * 1024 at hsize
    omega
  have hcount : ¬added.length ≥ 2 ^ 32 := by
    change added.length < 4096 at hlength
    omega
  rw [if_neg hsmall]
  by_cases hover : totalSize added + input.size > maxSourceBytes
  · rw [if_pos hover, if_pos hover]
    exact ⟨_, rfl, rfl, rfl⟩
  · have hlines : utf8Length input.text.toList < 2 ^ 32 := hmax.trans_lt (by decide)
    rw [if_neg hover, if_neg hover, if_neg hcount, lineStarts_eq hlines]
    refine ⟨_, rfl, ?_, ?_, fun identity => ?_⟩
    · rw [totalSize_append]
      rfl
    · rw [h.files, mapIdx_concat, ← hpath]
    · rw [OrderedMap.get?_insert, position_concat hmem, h.identities]
      split_ifs <;> rfl

theorem Holds.addFiles (h : Holds id added state) (hfiles : List.Forall₂ Validated inputs files)
    (hlength : added.length + inputs.length ≤ maxSourceFiles)
    (hsize : totalSize added ≤ maxSourceBytes) :
    match stops added inputs with
    | some stop => ∃ error, files.foldlM (SourceBuild.addFile id) state = .error error
      ∧ (error.code, error.path) = stop
    | none => ∃ state', files.foldlM (SourceBuild.addFile id) state = .ok state'
      ∧ Holds id (added ++ inputs) state' := by
  induction hfiles generalizing added state with
  | nil => exact ⟨state, rfl, by rwa [append_nil]⟩
  | @cons input file inputs files hfile _ ih =>
    rw [length_cons] at hlength
    have hstep := h.addFile hfile (by omega) hsize
    rw [foldlM_cons, stops]
    split_ifs at hstep ⊢ with hmem hover
    · obtain ⟨error, herror, hcode, hpath⟩ := hstep
      rw [herror]
      exact ⟨error, rfl, by rw [hcode, hpath]⟩
    · obtain ⟨error, herror, hcode, hpath⟩ := hstep
      rw [herror]
      exact ⟨error, rfl, by rw [hcode, hpath]⟩
    · obtain ⟨state', hstate, hholds⟩ := hstep
      have hsize' : totalSize (added ++ [input]) ≤ maxSourceBytes := by
        rw [totalSize_append]
        exact Nat.not_lt.mp hover
      have hrest := ih hholds (by simp; omega) hsize'
      rw [hstate, append_assoc] at *
      exact hrest

section

variable (inputs : List SourceFileInput)

theorem normalizeAll : match inputs.findSome? refusal with
    | some stop => ∃ error, inputs.mapM normalize = .error error ∧ (error.code, error.path) = stop
    | none => ∃ files, inputs.mapM normalize = .ok files ∧ List.Forall₂ Validated inputs files := by
  induction inputs with
  | nil => exact ⟨[], rfl, .nil⟩
  | cons input inputs ih =>
    have hfirst := normalize_eq input
    rw [findSome?_cons, mapM_cons]
    cases hrefusal : refusal input with
    | some stop =>
      rw [hrefusal] at hfirst
      obtain ⟨error, herror, hstop⟩ := hfirst
      rw [herror]
      exact ⟨error, rfl, hstop⟩
    | none =>
      rw [hrefusal] at hfirst
      obtain ⟨file, hfile, hvalidated⟩ := hfirst
      rw [hfile]
      dsimp only
      cases hrest : inputs.findSome? refusal with
      | some stop =>
        rw [hrest] at ih
        obtain ⟨error, herror, hstop⟩ := ih
        rw [herror]
        exact ⟨error, rfl, hstop⟩
      | none =>
        rw [hrest] at ih
        obtain ⟨files, hfiles, hall⟩ := ih
        rw [hfiles]
        exact ⟨file :: files, rfl, .cons hvalidated hall⟩

def sorted : List SourceFileInput :=
  inputs.mergeSort fun left right => left.path ≤ right.path

/-- Sorted by paths. -/
def Ascending : Prop :=
  inputs.Pairwise fun left right => left.path ≤ right.path

theorem ascending_sorted : Ascending (sorted inputs) := by
  have := @pairwise_mergeSort _ (fun left right : SourceFileInput =>
    decide (left.path ≤ right.path)) (fun _ _ _ hab hbc => by simp at *; exact hab.trans hbc)
    (fun a b => by simpa using le_total a.path b.path) inputs
  exact this.imp fun h => of_decide_eq_true h

theorem length_sorted : (sorted inputs).length = inputs.length :=
  length_mergeSort inputs

end

theorem Holds.empty (id : ℕ) : Holds id [] ⟨0, .empty, []⟩ :=
  ⟨rfl, rfl, fun _ => rfl⟩

theorem paths_validated (h : List.Forall₂ Validated inputs files) :
    files.map (fun file => file.1.asStr) = inputs.map SourceFileInput.path := by
  induction h with
  | nil => rfl
  | cons hfile _ ih => rw [map_cons, map_cons, hfile.1, ih]

/-- The second sort finds the files in order. -/
theorem mergeSort_validated (h : Ascending inputs) (hfiles : List.Forall₂ Validated inputs files) :
    (files.mergeSort fun left right => left.1 ≤ right.1) = files := by
  have hpaths : (files.map fun file => file.1.asStr).Pairwise (· ≤ ·) := by
    rw [paths_validated hfiles]
    exact pairwise_map.mpr h
  apply mergeSort_of_pairwise
  exact (pairwise_map.mp hpaths).imp fun hle => decide_eq_true hle

/-- What is built is a function of the sorted inputs. -/
theorem summary_build (id : ℕ) (inputs : List SourceFileInput) : summary (build (some id) inputs)
    = if inputs.length > maxSourceFiles then .error ("ZRYNA-S1002", none)
      else outcome (sorted inputs) := by
  unfold build
  by_cases hlength : inputs.length > maxSourceFiles
  · rw [if_pos hlength, if_pos hlength]
    rfl
  rw [if_neg hlength, if_neg hlength, outcome]
  have hall := normalizeAll (sorted inputs)
  cases hrefusal : (sorted inputs).findSome? refusal with
  | some stop =>
    rw [hrefusal] at hall
    obtain ⟨error, herror, rfl⟩ := hall
    show summary ((sorted inputs).mapM normalize >>= _) = _
    rw [herror]
    rfl
  | none =>
    rw [hrefusal] at hall
    obtain ⟨files, hfiles, hvalidated⟩ := hall
    have hadded := (Holds.empty id).addFiles hvalidated
      (by rw [length_sorted]; simpa using hlength) (Nat.zero_le _)
    show summary ((sorted inputs).mapM normalize >>= _) = _
    rw [hfiles]
    show summary ((files.mergeSort fun left right => left.1 ≤ right.1).foldlM (addFile id)
      ⟨0, .empty, []⟩ >>= _) = _
    rw [mergeSort_validated (ascending_sorted inputs) hvalidated]
    cases hstops : stops [] (sorted inputs) with
    | some stop =>
      rw [hstops] at hadded
      obtain ⟨error, herror, rfl⟩ := hadded
      rw [herror]
      rfl
    | none =>
      rw [hstops] at hadded
      obtain ⟨state, hstate, hholds⟩ := hadded
      rw [hstate]
      show Except.ok _ = Except.ok _
      congr 2
      · apply ext_getElem?
        intro i
        rw [hholds.files, nil_append, getElem?_map, listing, getElem?_mapIdx,
          getElem?_mapIdx, Option.map_map]
        rfl
      · funext path
        show (state.identities.get? path.portableIdentity).map FileId.index = _
        rw [hholds.identities, Option.map_map]
        exact Option.map_id'

/-! ### The order of the inputs -/

theorem refusal_eq_none {input : SourceFileInput} : refusal input = none
    ↔ validateSourcePath input.path = .ok () ∧ input.size ≤ maxSourceFileBytes := by
  unfold refusal
  cases validateSourcePath input.path with
  | error error => simp only [reduceCtorEq, false_and]
  | ok =>
    simp

theorem refusal_congr {left right : SourceFileInput} (h : left.path = right.path)
    (hleft : refusal left ≠ none) (hright : refusal right ≠ none) :
    refusal left = refusal right := by
  unfold refusal at *
  rw [h] at *
  cases hvalid : validateSourcePath right.path with
  | error error => rfl
  | ok =>
    rw [hvalid] at hleft hright
    dsimp only at *
    rw [if_pos (by_contra fun hsmall => hleft (if_neg hsmall)),
      if_pos (by_contra fun hsmall => hright (if_neg hsmall))]

variable {left right : List SourceFileInput}

theorem findSome?_refusal (h : left.Perm right)
    (hleft : Ascending left) (hright : Ascending right) :
    left.findSome? refusal = right.findSome? refusal := by
  cases hl : left.findSome? refusal with
  | none =>
    symm
    rw [findSome?_eq_none_iff] at *
    exact fun input hmem => hl input (h.mem_iff.mpr hmem)
  | some stop =>
    cases hr : right.findSome? refusal with
    | none =>
      rw [findSome?_eq_none_iff] at hr
      obtain ⟨input, hmem, hstop⟩ := exists_of_findSome?_eq_some hl
      cases hstop.symm.trans (hr input (h.mem_iff.mp hmem))
    | some stop' =>
      -- the first refused input of one list is refused in the other, and not before the first there
      have first : ∀ {left right : List SourceFileInput} {stop : String × Option String},
          left.Perm right → Ascending left → left.findSome? refusal = some stop →
          ∃ input ∈ right, refusal input = some stop ∧
            ∀ other ∈ right, refusal other ≠ none → input.path ≤ other.path := by
        intro left right stop h hasc hstop
        obtain ⟨before, input, behind, rfl, hinput, hbefore⟩ :=
          findSome?_eq_some_iff.mp hstop
        refine ⟨input, h.mem_iff.mp (by simp), hinput, fun other hmem hother => ?_⟩
        rcases mem_append.mp (h.mem_iff.mpr hmem) with hmem | hmem
        · exact absurd (hbefore other hmem) hother
        · rcases mem_cons.mp hmem with rfl | hmem
          · exact le_rfl
          · exact (pairwise_cons.mp (pairwise_append.mp hasc).2.1).1 other hmem
      obtain ⟨input, hmem, hinput, hfirst⟩ := first h hleft hl
      obtain ⟨input', hmem', hinput', hfirst'⟩ := first (List.Perm.refl _) hright hr
      have hpath := le_antisymm (hfirst input' hmem' (by simp [hinput']))
        (hfirst' input hmem (by simp [hinput]))
      rw [← hinput, ← hinput', refusal_congr hpath (by simp [hinput]) (by simp [hinput'])]

/-- Two files with the same path, of which only one fits behind the files that come before both of
them. -/
structure StraddlesAt (inputs : List SourceFileInput) (small big : SourceFileInput) : Prop where
  small_mem : small ∈ inputs
  big_mem : big ∈ inputs
  path : small.path = big.path
  distinct : ((inputs.filter (·.path < small.path)).map SourceFileInput.identity).Nodup
  fresh : small.identity ∉ (inputs.filter (·.path < small.path)).map SourceFileInput.identity
  fits : totalSize (inputs.filter (·.path < small.path)) + small.size ≤ maxSourceBytes
  exceeds : maxSourceBytes < totalSize (inputs.filter (·.path < small.path)) + big.size

/-- The aggregate limit falls between two files with the same path, and nothing else is wrong
before them. -/
structure Straddles (inputs : List SourceFileInput) : Prop where
  count : inputs.length ≤ maxSourceFiles
  valid : ∀ input ∈ inputs,
    validateSourcePath input.path = .ok () ∧ input.size ≤ maxSourceFileBytes
  pair : ∃ small big, StraddlesAt inputs small big

theorem identity_congr {left right : SourceFileInput} (h : left.path = right.path) :
    left.identity = right.identity := by
  rw [SourceFileInput.identity, h]
  rfl

theorem totalSize_perm (h : left.Perm right) : totalSize left = totalSize right :=
  (h.map _).sum_eq

/-- A second file with the path of the first is found to collide, once the first is added. -/
theorem stops_collision {input : SourceFileInput}
    (hasc : Ascending (input :: inputs)) (hother : other ∈ inputs) (hpath : input.path = other.path)
    (hfresh : input.identity ∉ added.map SourceFileInput.identity)
    (hfits : totalSize added + input.size ≤ maxSourceBytes) :
    stops added (input :: inputs) = some ("ZRYNA-S1004", some input.path) := by
  obtain ⟨hfirst, hrest⟩ := pairwise_cons.mp hasc
  cases inputs with
  | nil => exact absurd hother not_mem_nil
  | cons next inputs =>
    have hnext : next.path = input.path := by
      apply le_antisymm
      · rcases mem_cons.mp hother with rfl | hother
        · exact hpath.ge
        · exact hpath ▸ (pairwise_cons.mp hrest).1 other hother
      · exact hfirst next mem_cons_self
    rw [stops, if_neg hfresh, if_neg hfits.not_gt, stops, if_pos, hnext]
    rw [identity_congr hnext, map_append]
    exact mem_append_right _ (mem_singleton_self _)

theorem stops_append (hdistinct : ((added ++ inputs).map SourceFileInput.identity).Nodup)
    (hfits : totalSize (added ++ inputs) ≤ maxSourceBytes) :
    stops added (inputs ++ rest) = stops (added ++ inputs) rest := by
  induction inputs generalizing added with
  | nil => rw [append_nil, nil_append]
  | cons input inputs ih =>
    have hcons : added ++ input :: inputs = added ++ [input] ++ inputs := by simp
    rw [hcons] at hdistinct hfits
    have hfresh : input.identity ∉ added.map SourceFileInput.identity := by
      rw [map_append, map_append] at hdistinct
      have := (nodup_append.mp (nodup_append.mp hdistinct).1).2.2
      exact fun hmem => this _ hmem _ (mem_singleton_self _) rfl
    have hfits' : totalSize added + input.size ≤ maxSourceBytes := by
      rw [totalSize_append, totalSize_append] at hfits
      exact (Nat.le_add_right _ _).trans hfits
    rw [cons_append, stops, if_neg hfresh, if_neg hfits'.not_gt, ih hdistinct hfits, hcons]

theorem filter_before {before : List SourceFileInput} {path : String}
    (hbefore : ∀ input ∈ before, input.path < path)
    (hinputs : ∀ input ∈ inputs, path ≤ input.path) :
    (before ++ inputs).filter (·.path < path) = before := by
  rw [filter_append, filter_eq_self.mpr fun input hmem => decide_eq_true
      (hbefore input hmem), filter_eq_nil_iff.mpr fun input hmem => ?_, append_nil]
  rw [decide_eq_true_eq]
  exact (hinputs input hmem).not_gt

/-- The inputs are those that were added and those that are left, in order. -/
structure Splits (inputs added rest : List SourceFileInput) : Prop where
  perm : (added ++ rest).Perm inputs
  ascending : Ascending (added ++ rest)
  distinct : (added.map SourceFileInput.identity).Nodup

theorem Splits.step {input : SourceFileInput} (h : Splits inputs added (input :: rest))
    (hfresh : input.identity ∉ added.map SourceFileInput.identity) :
    Splits inputs (added ++ [input]) rest := by
  refine ⟨by rw [append_assoc]; exact h.perm, by rw [append_assoc]; exact h.ascending, ?_⟩
  rw [map_append, nodup_append]
  refine ⟨h.distinct, pairwise_singleton _ _, fun identity hmem other hother => ?_⟩
  rintro rfl
  exact hfresh (mem_singleton.mp hother ▸ hmem)

/-- The added files come strictly before the next one, unless it collides. -/
theorem Splits.filter {input : SourceFileInput} (h : Splits inputs added (input :: rest))
    (hfresh : input.identity ∉ added.map SourceFileInput.identity) :
    (inputs.filter (·.path < input.path)).Perm added := by
  obtain ⟨-, hrest, hbetween⟩ := pairwise_append.mp h.ascending
  refine (h.perm.symm.filter _).trans (List.Perm.of_eq (filter_before (fun other hmem => ?_) ?_))
  · refine lt_of_le_of_ne (hbetween other hmem input mem_cons_self) fun heq => hfresh ?_
    exact identity_congr heq ▸ mem_map_of_mem hmem
  · rintro other hother
    rcases mem_cons.mp hother with rfl | hother
    · exact le_rfl
    · exact (pairwise_cons.mp hrest).1 other hother

theorem Splits.straddlesAt {x y : SourceFileInput}
    (hx : Splits inputs added (x :: xs)) (hy : Splits inputs added (y :: ys))
    (hpath : x.path = y.path) (hfresh : x.identity ∉ added.map SourceFileInput.identity)
    (hfits : totalSize added + x.size ≤ maxSourceBytes)
    (hover : maxSourceBytes < totalSize added + y.size) : StraddlesAt inputs x y := by
  have hfilter := hx.filter hfresh
  have hsize := totalSize_perm hfilter
  exact {
    small_mem := hx.perm.mem_iff.mp (by simp)
    big_mem := hy.perm.mem_iff.mp (by simp)
    path := hpath
    distinct := (hfilter.map _).nodup_iff.mpr hx.distinct
    fresh := fun hmem => hfresh ((hfilter.map _).mem_iff.mp hmem)
    fits := by rwa [hsize]
    exceeds := by rwa [hsize] }

/-- Two orders of the inputs that are left stop alike. -/
theorem stops_congr (h : ∀ small big, ¬StraddlesAt inputs small big)
    (hxs : Splits inputs added xs) (hys : Splits inputs added ys) :
    stops added xs = stops added ys ∧ (stops added xs = none → xs = ys) := by
  have hperm : xs.Perm ys := (perm_append_left_iff added).mp (hxs.perm.trans hys.perm.symm)
  induction xs generalizing added ys with
  | nil =>
    rw [hperm.nil_eq]
    exact ⟨rfl, fun _ => rfl⟩
  | cons x xs ih =>
    obtain _ | ⟨y, ys⟩ := ys
    · exact absurd hperm.symm (by simp)
    have hascx : Ascending (x :: xs) := (pairwise_append.mp hxs.ascending).2.1
    have hascy : Ascending (y :: ys) := (pairwise_append.mp hys.ascending).2.1
    by_cases heq : x = y
    · subst heq
      rw [stops, stops]
      split_ifs with hmem hover
      · exact ⟨rfl, nofun⟩
      · exact ⟨rfl, nofun⟩
      · have hrest := ih (hxs.step hmem) (hys.step hmem) (perm_cons x |>.mp hperm)
        exact ⟨hrest.1, fun hnone => by rw [hrest.2 hnone]⟩
    have hy : y ∈ xs := (mem_cons.mp (hperm.mem_iff.mpr mem_cons_self)).resolve_left
      (Ne.symm heq)
    have hx : x ∈ ys := (mem_cons.mp (hperm.mem_iff.mp mem_cons_self)).resolve_left heq
    have hpath : x.path = y.path :=
      le_antisymm ((pairwise_cons.mp hascx).1 y hy) ((pairwise_cons.mp hascy).1 x hx)
    by_cases hmem : x.identity ∈ added.map SourceFileInput.identity
    · rw [stops, stops, if_pos hmem, if_pos (identity_congr hpath ▸ hmem), hpath]
      exact ⟨rfl, nofun⟩
    have hmem' : y.identity ∉ added.map SourceFileInput.identity := identity_congr hpath ▸ hmem
    -- without a straddle, both of them fit or none of them does
    rcases Nat.lt_or_ge maxSourceBytes (totalSize added + x.size) with hover | hfits
    · rcases Nat.lt_or_ge maxSourceBytes (totalSize added + y.size) with hover' | hfits'
      · rw [stops, stops, if_neg hmem, if_neg hmem', if_pos hover, if_pos hover']
        exact ⟨rfl, nofun⟩
      · exact absurd (hys.straddlesAt hxs hpath.symm hmem' hfits' hover) (h y x)
    · rcases Nat.lt_or_ge maxSourceBytes (totalSize added + y.size) with hover' | hfits'
      · exact absurd (hxs.straddlesAt hys hpath hmem hfits hover') (h x y)
      · rw [stops_collision hascx hy hpath hmem hfits,
          stops_collision hascy hx hpath.symm hmem' hfits', hpath]
        exact ⟨rfl, nofun⟩

theorem outcome_congr (h : left.Perm right)
    (hleft : Ascending left) (hright : Ascending right) (hinputs : left.Perm inputs)
    (hstraddles : (∀ input ∈ inputs, refusal input = none) →
      ∀ small big, ¬StraddlesAt inputs small big) : outcome left = outcome right := by
  rw [outcome, outcome, ← findSome?_refusal h hleft hright]
  cases hrefusal : left.findSome? refusal with
  | some stop => rfl
  | none =>
    have hvalid : ∀ input ∈ inputs, refusal input = none := fun input hmem =>
      findSome?_eq_none_iff.mp hrefusal input (hinputs.mem_iff.mpr hmem)
    obtain ⟨heq, hnone⟩ := stops_congr (hstraddles hvalid)
      (⟨hinputs, hleft, nodup_nil⟩ : Splits inputs [] left)
      ⟨h.symm.trans hinputs, hright, nodup_nil⟩
    cases hstops : stops [] left with
    | some stop => rw [← heq, hstops]
    | none => rw [← heq, hstops, hnone hstops]

/-- An input that comes first is sorted before the others of its path. -/
theorem sorted_cons (input : SourceFileInput) (inputs : List SourceFileInput) :
    ∃ before behind, sorted (input :: inputs) = before ++ input :: behind
      ∧ (∀ other ∈ before, other.path < input.path)
      ∧ ∀ other ∈ inputs, other.path = input.path → other ∈ behind := by
  obtain ⟨before, behind, hsorted, hrest, hbefore⟩ := @mergeSort_cons _
    (fun left right : SourceFileInput => decide (left.path ≤ right.path))
    (fun a b c hab hbc => decide_eq_true ((of_decide_eq_true hab).trans (of_decide_eq_true hbc)))
    (fun a b => by simpa using le_total a.path b.path) input inputs
  have hlt : ∀ other ∈ before, other.path < input.path := fun other hmem => by
    simpa using hbefore other hmem
  refine ⟨before, behind, hsorted, hlt, fun other hmem hpath => ?_⟩
  have hother : other ∈ before ++ behind := hrest ▸ mem_mergeSort.mpr hmem
  refine (mem_append.mp hother).resolve_left fun hbehind => ?_
  exact (hlt other hbehind).ne hpath

variable {big small : SourceFileInput}

/-- Which of the two files is counted is decided by their order. -/
theorem StraddlesAt.outcome (h : StraddlesAt inputs small big)
    (hvalid : ∀ input ∈ inputs, refusal input = none) {input : SourceFileInput}
    (hperm : (input :: rest).Perm inputs) (hpath : input.path = small.path) (hother : other ∈ rest)
    (hother' : other.path = small.path) : SourceBuild.outcome (sorted (input :: rest)) = .error
      (if totalSize (inputs.filter (·.path < small.path)) + input.size ≤ maxSourceBytes then
        ("ZRYNA-S1004", some small.path) else ("ZRYNA-S1005", none)) := by
  obtain ⟨before, behind, hsorted, hbefore, hbehind⟩ := sorted_cons input rest
  have hasc : Ascending (before ++ input :: behind) := hsorted ▸ ascending_sorted _
  have hascinput : Ascending (input :: behind) := (pairwise_append.mp hasc).2.1
  have hall : (before ++ input :: behind).Perm inputs :=
    hsorted ▸ (mergeSort_perm _ _).trans hperm
  have hfilter : before.Perm (inputs.filter (·.path < small.path)) := by
    rw [← hpath]
    refine (List.Perm.of_eq (filter_before hbefore fun file hmem => ?_).symm).trans
      (hall.filter _)
    rcases mem_cons.mp hmem with rfl | hmem
    · exact le_rfl
    · exact (pairwise_cons.mp hascinput).1 file hmem
  have hsize := totalSize_perm hfilter
  have hdistinct := (hfilter.map SourceFileInput.identity).nodup_iff.mpr h.distinct
  have hfresh : input.identity ∉ before.map SourceFileInput.identity := fun hmem =>
    h.fresh (identity_congr hpath ▸ (hfilter.map _).mem_iff.mp hmem)
  have hfits : totalSize before ≤ maxSourceBytes := hsize ▸ (Nat.le_add_right _ _).trans h.fits
  have hrefusal : (before ++ input :: behind).findSome? refusal = none :=
    findSome?_eq_none_iff.mpr fun file hmem => hvalid file (hall.mem_iff.mp hmem)
  have hstops : stops [] (before ++ input :: behind) = stops before (input :: behind) :=
    stops_append hdistinct hfits
  rw [SourceBuild.outcome, hsorted, hrefusal, hstops, ← hsize]
  dsimp only
  split_ifs with hinput
  · rw [stops_collision hascinput (hbehind other hother (hother'.trans hpath.symm))
      (hpath.trans hother'.symm) hfresh hinput, hpath]
  · rw [stops, if_neg hfresh, if_pos (Nat.not_le.mp hinput)]

/-- The answers when one or the other of the two files comes first. -/
theorem Straddles.summaries (h : Straddles inputs) (hpair : StraddlesAt inputs small big) (id : ℕ)
    (hleft : (small :: left).Perm inputs) (hright : (big :: right).Perm inputs) :
    summary (build (some id) (small :: left)) = .error ("ZRYNA-S1004", some small.path)
      ∧ summary (build (some id) (big :: right)) = .error ("ZRYNA-S1005", none) := by
  have hvalid : ∀ input ∈ inputs, refusal input = none := fun input hmem =>
    refusal_eq_none.mpr (h.valid input hmem)
  have hne : small ≠ big := by
    rintro rfl
    exact absurd hpair.fits hpair.exceeds.not_ge
  have hbig : big ∈ left :=
    (mem_cons.mp (hleft.mem_iff.mpr hpair.big_mem)).resolve_left hne.symm
  have hsmall : small ∈ right :=
    (mem_cons.mp (hright.mem_iff.mpr hpair.small_mem)).resolve_left hne
  constructor
  · rw [summary_build, if_neg (hleft.length_eq ▸ h.count.not_gt),
      hpair.outcome hvalid hleft rfl hbig hpair.path.symm, if_pos hpair.fits]
  · rw [summary_build, if_neg (hright.length_eq ▸ h.count.not_gt),
      hpair.outcome hvalid hright hpair.path.symm hsmall rfl, if_neg hpair.exceeds.not_ge]

/-- What is built depends on the order of the inputs exactly when they straddle the limit. -/
theorem build_perm_iff (inputs : List SourceFileInput) :
    (∀ inputs', inputs.Perm inputs' → ∀ id id',
      summary (build (some id) inputs) = summary (build (some id') inputs'))
    ↔ ¬Straddles inputs := by
  constructor
  · intro h hstraddles
    obtain ⟨small, big, hpair⟩ := hstraddles.pair
    have hleft := perm_cons_erase hpair.small_mem
    have hright := perm_cons_erase hpair.big_mem
    obtain ⟨hsmall, hbig⟩ := hstraddles.summaries hpair 0 hleft.symm hright.symm
    rw [← h _ hleft 0 0, h _ hright 0 0, hbig] at hsmall
    simp at hsmall
  · intro h inputs' hperm id id'
    rw [summary_build, summary_build, ← hperm.length_eq]
    split_ifs with hlength
    · rfl
    have hsorted : ∀ inputs : List SourceFileInput, (sorted inputs).Perm inputs :=
      fun inputs => mergeSort_perm inputs _
    refine outcome_congr ((hsorted inputs).trans (hperm.trans (hsorted inputs').symm))
      (ascending_sorted _) (ascending_sorted _) (hsorted inputs) fun hvalid small big hpair => ?_
    exact h ⟨Nat.not_lt.mp hlength, fun input hmem => refusal_eq_none.mp (hvalid input hmem),
      small, big, hpair⟩

/-- A file for each character, all with the same text. -/
def crowd (names : List Char) (text : String) : List SourceFileInput :=
  names.map fun name => ⟨String.singleton name, text⟩

/-- Thirty-two names. -/
def names : List Char := "abcdefghijklmnopqrstuvwxyz012345".toList

/-- An empty file, a file of one byte at the same path, and thirty-two files before them. -/
def crowded (text : String) : List SourceFileInput :=
  ⟨"zz", ""⟩ :: ⟨"zz", "x"⟩ :: crowd names text

theorem filter_crowded (text : String) :
    (crowded text).filter (·.path < "zz") = crowd names text := by
  have hall : names.all (String.singleton · < "zz") = true := by decide
  have hbefore : ∀ name ∈ names, String.singleton name < "zz" := fun name hmem =>
    of_decide_eq_true (all_eq_true.mp hall name hmem)
  show (crowd names text).filter (·.path < "zz") = crowd names text
  rw [filter_eq_self]
  intro input hmem
  obtain ⟨name, hname, rfl⟩ := mem_map.mp hmem
  exact decide_eq_true (hbefore name hname)

variable {text : String}

theorem totalSize_crowd (h : utf8Length text.toList = maxSourceFileBytes)
    (names : List Char) : totalSize (crowd names text) = names.length * maxSourceFileBytes := by
  induction names with
  | nil => exact (Nat.zero_mul _).symm
  | cons name names ih =>
    rw [length_cons, Nat.succ_mul, ← ih, ← h, Nat.add_comm]
    rfl

theorem identities_crowd (text : String) (names : List Char) :
    (crowd names text).map SourceFileInput.identity
      = (crowd names "").map SourceFileInput.identity := by
  rw [crowd, crowd, map_map, map_map]
  rfl

theorem straddlesAt_crowded (h : utf8Length text.toList = maxSourceFileBytes) :
    StraddlesAt (crowded text) ⟨"zz", ""⟩ ⟨"zz", "x"⟩ where
  small_mem := mem_cons_self
  big_mem := mem_cons_of_mem _ mem_cons_self
  path := rfl
  distinct := by
    rw [filter_crowded, identities_crowd]
    decide
  fresh := by
    rw [filter_crowded, identities_crowd]
    decide
  fits := by
    rw [filter_crowded, totalSize_crowd h]
    decide
  exceeds := by
    rw [filter_crowded, totalSize_crowd h]
    decide

theorem straddles_crowded (h : utf8Length text.toList = maxSourceFileBytes) :
    Straddles (crowded text) where
  count := by
    show 34 ≤ maxSourceFiles
    decide
  valid := by
    intro input hmem
    have hpaths : ∀ path ∈ (crowded "").map SourceFileInput.path,
        validateSourcePath path = .ok () := by
      decide
    have hsame : (crowded text).map SourceFileInput.path
        = (crowded "").map SourceFileInput.path := rfl
    refine ⟨hpaths _ (hsame ▸ mem_map_of_mem hmem), ?_⟩
    rcases mem_cons.mp hmem with rfl | hmem
    · exact Nat.zero_le _
    rcases mem_cons.mp hmem with rfl | hmem
    · decide
    · obtain ⟨c, -, rfl⟩ := mem_map.mp hmem
      exact h.le
  pair := ⟨_, _, straddlesAt_crowded h⟩

/-- A text at the limit of one file. -/
def fullText : String := String.ofList (List.replicate maxSourceFileBytes 'a')

theorem utf8Length_fullText : utf8Length fullText.toList = maxSourceFileBytes := by
  rw [fullText, String.toList_ofList, utf8Length, map_replicate, sum_replicate]
  exact Nat.mul_one _

/-- Behind files that fill the source map, an empty file and a file of one byte at the same path
collide in one order and are too large in the other. -/
theorem build_perm_differs :
    (⟨"zz", "x"⟩ :: ⟨"zz", ""⟩ :: crowd names fullText).Perm (crowded fullText)
      ∧ summary (build (some 0) (crowded fullText)) = .error ("ZRYNA-S1004", some "zz")
      ∧ summary (build (some 0) (⟨"zz", "x"⟩ :: ⟨"zz", ""⟩ :: crowd names fullText))
        = .error ("ZRYNA-S1005", none) := by
  have hswap : (⟨"zz", "x"⟩ :: ⟨"zz", ""⟩ :: crowd names fullText).Perm (crowded fullText) :=
    List.Perm.swap _ _ _
  exact ⟨hswap, (straddles_crowded utf8Length_fullText).summaries
    (straddlesAt_crowded utf8Length_fullText) 0 (List.Perm.refl _) hswap⟩

end Zryna.SourceBuild
