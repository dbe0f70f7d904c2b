import Mathlib.Data.List.Induction
import Mathlib.Data.Prod.Lex
import Mathlib.Data.String.Basic
import Zryna.Foundation.LeastKept
import Zryna.Layout.Preflight

/-!
# Retained layout diagnostics

`Errors` of the aggregate layout verifier: a bounded collector that keeps the least diagnostics
under `compareRetained` and ends with a terminal diagnostic when it had to leave some out.

The comparison reads every part of a diagnostic but one: a source location counts with the index of
its file, not with the source map that the file belongs to. Diagnostics at spans of two source maps
can compare as equal, and then they are listed as they came.
-/

namespace Zryna.Layout.Aggregate

open List

/-- Maximum retained diagnostics, including the terminal diagnostic. -/
def maxDiagnostics : ℕ := 256

/-! ### The order -/

/-- `u64::from_str` of a run of digits. -/
def parseDigits (digits : List Char) : Option ℕ :=
  let value := digits.foldl (fun value digit => 10 * value + (digit.toNat - '0'.toNat)) 0
  if value < 2 ^ 64 then some value else none

/-- The numbers in a message, in order. -/
def diagnosticNumbers (diagnostic : Diagnostic) : List ℕ :=
  ((diagnostic.message.toList.splitOnP fun character => !character.isDigit).filter
    fun digits => digits ≠ []).filterMap parseDigits

/-- A diagnostic with the numbers in its message. -/
structure RetainedDiagnostic where
  diagnostic : Diagnostic
  numeric : List ℕ
deriving DecidableEq

def RetainedDiagnostic.new (diagnostic : Diagnostic) : RetainedDiagnostic :=
  ⟨diagnostic, diagnosticNumbers diagnostic⟩

/-- The tuples of the source are compared lexicographically. -/
abbrev Location : Type := ℕ ×ₗ ℕ ×ₗ ℕ ×ₗ ℕ ×ₗ String

def diagnosticLocation (diagnostic : Diagnostic) : Location :=
  match diagnostic.primary with
  | .source span => toLex (0, toLex (span.file.index, toLex (span.start, toLex (span.stop, ""))))
  | .workspacePath path => toLex (1, toLex (0, toLex (0, toLex (0, path))))
  | .global => toLex (2, toLex (0, toLex (0, toLex (0, ""))))

def compareRetained (left right : RetainedDiagnostic) : Ordering :=
  let leftTerminal : Bool := left.diagnostic.code = "ZRYNA-L3201"
  let rightTerminal : Bool := right.diagnostic.code = "ZRYNA-L3201"
  (cmp leftTerminal rightTerminal).then
    ((cmp (diagnosticLocation left.diagnostic) (diagnosticLocation right.diagnostic)).then
      ((cmp left.diagnostic.code right.diagnostic.code).then
        ((cmp left.numeric right.numeric).then
          ((cmp left.diagnostic.message right.diagnostic.message).then
            (cmp left.diagnostic.guidance right.diagnostic.guidance)))))

/-! ### The collector -/

structure Errors where
  diagnostics : List RetainedDiagnostic
  fatal : Bool
  truncated : Bool
deriving DecidableEq

namespace Errors

def default : Errors := ⟨[], false, false⟩

variable (errors : Errors)

/-- Diagnostics after a fatal one are dropped. -/
def push (diagnostic : Diagnostic) : Errors :=
  if errors.fatal then errors
  else
    { errors with
      diagnostics := LeastKept.keep compareRetained (maxDiagnostics - 1) errors.diagnostics
        (.new diagnostic)
      truncated := errors.truncated || errors.diagnostics.length ≥ maxDiagnostics - 1 }

def limit (label : String) (limit : ℕ) : Errors :=
  { errors.push (limitError label limit) with fatal := true }

def limitAt (span : Option Span) (label : String) (limit : ℕ) : Errors :=
  { errors.push (limitErrorAt span label limit) with fatal := true }

def overflow (span : Option Span) (label : String) : Errors :=
  errors.push (overflowError span label)

/-- What stands in for a failure that left no diagnostic. -/
def unexplained : Diagnostic :=
  globalError "ZRYNA-L3003" "layout verification failed without a retained detail"
    "report the smallest reproducible graph"

def budgetExhausted : Diagnostic :=
  globalError "ZRYNA-L3201" "layout diagnostic budget exhausted"
    "fix the earliest reported layout errors and verify again"

def finish : List Diagnostic :=
  let diagnostics := errors.diagnostics
    ++ (if errors.diagnostics = [] then [.new unexplained] else [])
    ++ if errors.truncated then [.new budgetExhausted] else []
  (LeastKept.inOrder compareRetained diagnostics).map RetainedDiagnostic.diagnostic

/-- Everything that is pushed, in order. -/
def pushAll (diagnostics : List Diagnostic) : Errors := diagnostics.foldl push default

end Errors

/-! ### Keys -/

/-- Everything that the comparison reads. -/
abbrev RetainedKey : Type := Bool ×ₗ Location ×ₗ String ×ₗ List ℕ ×ₗ String ×ₗ String

def RetainedDiagnostic.key (entry : RetainedDiagnostic) : RetainedKey :=
  toLex (decide (entry.diagnostic.code = "ZRYNA-L3201"),
    toLex (diagnosticLocation entry.diagnostic, toLex (entry.diagnostic.code,
      toLex (entry.numeric, toLex (entry.diagnostic.message, entry.diagnostic.guidance)))))

def retainedKey (diagnostic : Diagnostic) : RetainedKey := (RetainedDiagnostic.new diagnostic).key

theorem cmp_toLex {α β : Type} [LinearOrder α] [LinearOrder β] (a c : α) (b d : β) :
    cmp (toLex (a, b)) (toLex (c, d)) = (cmp a c).then (cmp b d) := by
  obtain hlt | rfl | hgt := lt_trichotomy a c
  · rw [hlt.cmp_eq_lt, (Prod.Lex.toLex_lt_toLex.mpr (.inl hlt)).cmp_eq_lt]
    rfl
  · rw [cmp_self_eq_eq]
    simp only [Ordering.then, cmp, cmpUsing, Prod.Lex.toLex_lt_toLex, lt_irrefl, true_and, false_or]
  · rw [hgt.cmp_eq_gt, (Prod.Lex.toLex_lt_toLex.mpr (.inl hgt)).cmp_eq_gt]
    rfl

theorem compareRetained_eq (left right : RetainedDiagnostic) :
    compareRetained left right = cmp left.key right.key := by
  unfold compareRetained RetainedDiagnostic.key
  rw [cmp_toLex, cmp_toLex, cmp_toLex, cmp_toLex, cmp_toLex]
  congr!

/-- The diagnostic without the source map that its span names. -/
def Diagnostic.anonymous (diagnostic : Diagnostic) : Diagnostic :=
  match diagnostic.primary with
  | .source span =>
    { diagnostic with primary := .source { span with file := ⟨0, span.file.index⟩ } }
  | _ => diagnostic

/-- The comparison tells diagnostics apart up to the source maps of their spans. -/
theorem anonymous_of_key {d d' : Diagnostic} (h : retainedKey d = retainedKey d') :
    Diagnostic.anonymous d = Diagnostic.anonymous d' := by
  obtain ⟨code, primary, message, guidance⟩ := d
  obtain ⟨code', primary', message', guidance'⟩ := d'
  simp only [retainedKey, RetainedDiagnostic.key, RetainedDiagnostic.new, EmbeddingLike.apply_eq_iff_eq,
    Prod.mk.injEq] at h
  obtain ⟨-, hlocation, rfl, -, rfl, rfl⟩ := h
  cases primary <;> cases primary' <;>
    simp only [diagnosticLocation, EmbeddingLike.apply_eq_iff_eq, Prod.mk.injEq] at hlocation <;>
    simp_all [Diagnostic.anonymous]

/-- All spans belong to one source map. -/
def OneSourceMap (diagnostics : List Diagnostic) : Prop :=
  ∃ id, ∀ d ∈ diagnostics, ∀ span, d.primary = .source span → span.file.sourceMapId = id

theorem eq_of_anonymous {id : ℕ} {d d' : Diagnostic}
    (hd : ∀ span, d.primary = .source span → span.file.sourceMapId = id)
    (hd' : ∀ span, d'.primary = .source span → span.file.sourceMapId = id)
    (h : Diagnostic.anonymous d = Diagnostic.anonymous d') : d = d' := by
  obtain ⟨code, primary, message, guidance⟩ := d
  obtain ⟨code', primary', message', guidance'⟩ := d'
  cases primary with
  | source span =>
    cases primary' with
    | source span' =>
      obtain ⟨⟨map, index⟩, start, stop⟩ := span
      obtain ⟨⟨map', index'⟩, start', stop'⟩ := span'
      have hmap : map = id := hd _ rfl
      have hmap' : map' = id := hd' _ rfl
      simp_all [Diagnostic.anonymous]
    | _ => simp [Diagnostic.anonymous] at h
  | _ => cases primary' <;> simp_all [Diagnostic.anonymous]

/-- Lists with the same keys have the same images under what the keys determine. -/
theorem map_eq_of_map_eq {α β γ : Type} {f : α → β} {g : α → γ} {xs ys : List α}
    (hfg : ∀ x ∈ xs, ∀ y ∈ ys, f x = f y → g x = g y) (h : xs.map f = ys.map f) :
    xs.map g = ys.map g := by
  induction xs generalizing ys with
  | nil =>
    obtain rfl : ys = [] := by simpa using h.symm
    rfl
  | cons x xs ih =>
    cases ys with
    | nil => cases h
    | cons y ys =>
      obtain ⟨hhead, htail⟩ := List.cons.inj h
      rw [map_cons, map_cons, hfg x (by simp) y (by simp) hhead, ih ?_ htail]
      exact fun x hx y hy => hfg x (by simp [hx]) y (by simp [hy])

/-! ### What is retained -/

/-- The `maxDiagnostics - 1` least diagnostics, in order. -/
def leastDiagnostics (pushed : List Diagnostic) : List Diagnostic :=
  ((LeastKept.inOrder compareRetained (pushed.map .new)).take (maxDiagnostics - 1)).map
    RetainedDiagnostic.diagnostic

/-- What a collector that was given these diagnostics ends with. -/
def retained (pushed : List Diagnostic) : List Diagnostic :=
  leastDiagnostics pushed
    ++ if maxDiagnostics - 1 < pushed.length then [Errors.budgetExhausted] else []

theorem new_of_mem {pushed : List Diagnostic} {entry : RetainedDiagnostic}
    (h : entry ∈ pushed.map RetainedDiagnostic.new) :
    entry.diagnostic ∈ pushed ∧ RetainedDiagnostic.new entry.diagnostic = entry := by
  obtain ⟨d, hd, rfl⟩ := mem_map.mp h
  exact ⟨hd, rfl⟩

theorem map_key_leastDiagnostics (pushed : List Diagnostic) :
    (leastDiagnostics pushed).map retainedKey
      = ((pushed.map retainedKey).mergeSort (· ≤ ·)).take (maxDiagnostics - 1) := by
  have hkeys : pushed.map retainedKey = (pushed.map .new).map RetainedDiagnostic.key := by
    rw [map_map]
    rfl
  rw [hkeys, ← LeastKept.map_key_inOrder compareRetained_eq, ← map_take, leastDiagnostics,
    map_map]
  refine map_congr_left fun entry hentry => ?_
  have hmem := mem_of_mem_take hentry
  rw [LeastKept.inOrder, mem_mergeSort] at hmem
  exact congrArg RetainedDiagnostic.key (new_of_mem hmem).2

theorem map_key_retained {pushed order : List Diagnostic} (h : order.Perm pushed) :
    (retained order).map retainedKey = (retained pushed).map retainedKey := by
  have hkeys := LeastKept.mergeSort_congr (h.map retainedKey)
  rw [retained, retained, map_append, map_append, map_key_leastDiagnostics,
    map_key_leastDiagnostics, hkeys, h.length_eq]

theorem mem_retained {pushed : List Diagnostic} {d : Diagnostic} (h : d ∈ retained pushed) :
    d ∈ pushed ∨ d = Errors.budgetExhausted := by
  rw [retained, mem_append] at h
  obtain hleast | hlast := h
  · obtain ⟨entry, hentry, rfl⟩ := mem_map.mp hleast
    have hmem := mem_of_mem_take hentry
    rw [LeastKept.inOrder, mem_mergeSort] at hmem
    exact .inl (new_of_mem hmem).1
  · split at hlast
    · exact .inr (mem_singleton.mp hlast)
    · cases hlast

namespace Errors

/-- After any number of arrivals the collector holds the least of them. -/
theorem pushAll_spec (pushed : List Diagnostic) :
    (pushAll pushed).fatal = false
      ∧ ((pushAll pushed).truncated = true ↔ maxDiagnostics - 1 < pushed.length)
      ∧ LeastKept.Kept RetainedDiagnostic.key (maxDiagnostics - 1) (pushed.map .new)
        (pushAll pushed).diagnostics := by
  induction pushed using List.reverseRecOn with
  | nil => exact ⟨rfl, by simp [pushAll, default], LeastKept.kept_nil _ _⟩
  | append_singleton pushed diagnostic ih =>
    obtain ⟨hfatal, htruncated, hkept⟩ := ih
    have hstep : pushAll (pushed ++ [diagnostic]) = (pushAll pushed).push diagnostic := by
      unfold pushAll
      rw [foldl_append]
      rfl
    rw [hstep, push, if_neg (by simp [hfatal]), map_append]
    refine ⟨hfatal, ?_, hkept.keep compareRetained_eq (by decide) _⟩
    have hlength := hkept.length_eq
    rw [length_map] at hlength
    rw [Bool.or_eq_true, htruncated, decide_eq_true_eq, length_append, length_singleton]
    omega

variable {pushed : List Diagnostic}

theorem key_lt_budgetExhausted {entry : RetainedDiagnostic}
    (h : entry.diagnostic.code ≠ "ZRYNA-L3201") :
    entry.key < (RetainedDiagnostic.new budgetExhausted).key := by
  have hterminal : (RetainedDiagnostic.new budgetExhausted).diagnostic.code = "ZRYNA-L3201" := rfl
  refine Prod.Lex.toLex_lt_toLex.mpr (.inl ?_)
  rw [decide_eq_false h, decide_eq_true hterminal]
  exact Bool.false_lt_true

theorem mem_diagnostics {entry : RetainedDiagnostic} (h : entry ∈ (pushAll pushed).diagnostics) :
    entry ∈ pushed.map RetainedDiagnostic.new := by
  obtain ⟨dropped, hperm, -⟩ := (pushAll_spec pushed).2.2.split
  exact hperm.mem_iff.mpr (mem_append_left _ h)

/-- A collector with arrivals does not need the diagnostic that stands in for them. -/
theorem finish_eq (hne : pushed ≠ []) :
    (pushAll pushed).finish = (LeastKept.inOrder compareRetained ((pushAll pushed).diagnostics
      ++ if maxDiagnostics - 1 < pushed.length then [.new budgetExhausted] else [])).map
        RetainedDiagnostic.diagnostic := by
  obtain ⟨-, htruncated, hkept⟩ := pushAll_spec pushed
  have hheld : (pushAll pushed).diagnostics ≠ [] := by
    intro hnil
    have hlength := hkept.length_eq
    rw [hnil, length_nil, length_map] at hlength
    have : 0 < pushed.length := length_pos_of_ne_nil hne
    unfold maxDiagnostics at hlength
    omega
  unfold finish
  simp only [hheld, if_false, append_nil, htruncated]

theorem mem_finish (hne : pushed ≠ []) {d : Diagnostic} (h : d ∈ (pushAll pushed).finish) :
    d ∈ pushed ∨ d = budgetExhausted := by
  rw [finish_eq hne, mem_map] at h
  obtain ⟨entry, hentry, rfl⟩ := h
  rw [LeastKept.inOrder, mem_mergeSort, mem_append] at hentry
  obtain hheld | hlast := hentry
  · exact .inl (new_of_mem (mem_diagnostics hheld)).1
  · split at hlast
    · rw [mem_singleton] at hlast
      exact .inr (hlast ▸ rfl)
    · cases hlast

/-- The keys of what the collector ends with depend on the keys of the arrivals only. -/
theorem map_key_finish (hne : pushed ≠ []) (hcodes : ∀ d ∈ pushed, d.code ≠ "ZRYNA-L3201") :
    (pushAll pushed).finish.map retainedKey
      = (retained pushed).map retainedKey := by
  obtain ⟨-, -, hkept⟩ := pushAll_spec pushed
  have hleast : (leastDiagnostics pushed).map retainedKey
      = (LeastKept.inOrder compareRetained (pushAll pushed).diagnostics).map
        RetainedDiagnostic.key := by
    rw [hkept.map_key compareRetained_eq, map_key_leastDiagnostics, map_map]
    rfl
  have hdiagnostic (entries : List RetainedDiagnostic)
      (hentries : ∀ entry ∈ entries, RetainedDiagnostic.new entry.diagnostic = entry) :
      ((LeastKept.inOrder compareRetained entries).map RetainedDiagnostic.diagnostic).map
          retainedKey
        = (LeastKept.inOrder compareRetained entries).map RetainedDiagnostic.key := by
    rw [map_map]
    refine map_congr_left fun entry hentry => ?_
    rw [LeastKept.inOrder, mem_mergeSort] at hentry
    exact congrArg RetainedDiagnostic.key (hentries entry hentry)
  have hheld (entry : RetainedDiagnostic) (h : entry ∈ (pushAll pushed).diagnostics) :=
    new_of_mem (mem_diagnostics h)
  rw [finish_eq hne, retained, map_append, hleast]
  split
  · -- the terminal diagnostic is above all others
    rw [hdiagnostic, LeastKept.map_key_inOrder_concat compareRetained_eq]
    · rfl
    · intro entry hentry
      exact (key_lt_budgetExhausted (hcodes _ (hheld entry hentry).1)).le
    · intro entry hentry
      obtain hentry | hlast := mem_append.mp hentry
      · exact (hheld entry hentry).2
      · obtain rfl := mem_singleton.mp hlast
        rfl
  · rw [append_nil, map_nil, append_nil]
    exact hdiagnostic _ fun entry hentry => (hheld entry hentry).2

end Errors

/-- The collector does not depend on the order of arrival. Diagnostics that differ in the source map
of their span only are told apart by nothing but the order, so the list is fixed up to these source
maps, and exactly when there is one source map. -/
theorem finish_pushAll {pushed order : List Diagnostic} (hne : pushed ≠ [])
    (hcodes : ∀ d ∈ pushed, d.code ≠ "ZRYNA-L3201") (horder : order.Perm pushed) :
    (Errors.pushAll order).finish.map Diagnostic.anonymous
        = (retained pushed).map Diagnostic.anonymous
      ∧ (OneSourceMap pushed → (Errors.pushAll order).finish = retained pushed) := by
  have hne' : order ≠ [] := by
    rintro rfl
    exact hne horder.nil_eq.symm
  have hkeys : (Errors.pushAll order).finish.map retainedKey = (retained pushed).map retainedKey :=
    (Errors.map_key_finish hne' fun d hd => hcodes d (horder.mem_iff.mp hd)).trans
      (map_key_retained horder)
  refine ⟨map_eq_of_map_eq (fun _ _ _ _ => anonymous_of_key) hkeys, ?_⟩
  rintro ⟨id, hid⟩
  have hspan {d : Diagnostic} (hd : d ∈ pushed ∨ d = Errors.budgetExhausted) (span : Span)
      (h : d.primary = .source span) : span.file.sourceMapId = id := by
    obtain hd | rfl := hd
    · exact hid d hd span h
    · cases h
  have hsame := map_eq_of_map_eq (g := fun d => d) ?_ hkeys
  · simpa using hsame
  · intro d hd d' hd' h
    have hd := (Errors.mem_finish hne' hd).imp_left horder.mem_iff.mp
    exact eq_of_anonymous (hspan hd) (hspan (mem_retained hd')) (anonymous_of_key h)

/-- One claim at the start of the first file of a source map. -/
def sampleDiagnostic (sourceMapId : ℕ) : Diagnostic :=
  errorAt (some ⟨⟨sourceMapId, 0⟩, 0, 0⟩) "ZRYNA-L3003"
    "a stored struct must contain at least one field" "add a field or remove the declaration"

/-- Two diagnostics, the later one first. -/
theorem finish_pushAll_two :
    (Errors.pushAll [globalError "ZRYNA-L3003" "field 10" "",
        globalError "ZRYNA-L3003" "field 9" ""]).finish
      = retained [globalError "ZRYNA-L3003" "field 9" "", globalError "ZRYNA-L3003" "field 10" ""] :=
  (finish_pushAll (by simp) (by decide) (List.Perm.swap ..)).2 ⟨0, by
    intro d hd span h
    simp only [mem_cons, not_mem_nil, or_false] at hd
    obtain rfl | rfl := hd <;> cases h⟩

/-- Entries that are in order stay as they are. -/
theorem finish_of_pairwise {entries : List RetainedDiagnostic} (hne : entries ≠ [])
    (h : entries.Pairwise fun a b => (compareRetained a b).isLE = true) :
    Errors.finish ⟨entries, false, false⟩ = entries.map RetainedDiagnostic.diagnostic := by
  unfold Errors.finish
  simp only [hne, if_false, Bool.false_eq_true, append_nil]
  rw [LeastKept.inOrder, mergeSort_of_pairwise h]

/-- Without arrivals the list is not empty, and diagnostics at spans of two source maps are listed
in the order of arrival. -/
theorem finish_pushAll_foreign :
    (Errors.pushAll []).finish ≠ retained []
      ∧ (Errors.pushAll [sampleDiagnostic 0, sampleDiagnostic 1]).finish
        ≠ (Errors.pushAll [sampleDiagnostic 1, sampleDiagnostic 0]).finish := by
  constructor
  · have hempty : (Errors.pushAll []).finish = [Errors.unexplained] := by
      unfold Errors.finish
      simp [Errors.pushAll, Errors.default, LeastKept.inOrder, RetainedDiagnostic.new]
    have hretained : retained [] = [] := by
      simp [retained, leastDiagnostics, LeastKept.inOrder]
    rw [hempty, hretained]
    simp
  · have hboth (i j : Fin 2) : (Errors.pushAll [sampleDiagnostic i, sampleDiagnostic j]).finish
        = [sampleDiagnostic i, sampleDiagnostic j] := by
      have hpushed : Errors.pushAll [sampleDiagnostic i, sampleDiagnostic j]
          = ⟨[.new (sampleDiagnostic i), .new (sampleDiagnostic j)], false, false⟩ := rfl
      rw [hpushed, finish_of_pairwise (by simp)]
      · rfl
      · refine pairwise_pair.mpr ?_
        revert i j
        decide
    have h01 := hboth 0 1
    have h10 := hboth 1 0
    simp only [Fin.val_zero, Fin.val_one] at h01 h10
    rw [h01, h10]
    decide

end Zryna.Layout.Aggregate
