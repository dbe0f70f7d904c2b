import Zryna.Layout.Cycles
import Zryna.Layout.Document

/-!
# The aggregate layout verifier

`verify` runs the passes in order, computes and seals the records of both storage targets, and
returns those of the requested one. Every pass starts without diagnostics, since the one before
reported none. Which diagnostics are retained, and in which order, is left out.

`verify_eq_done` reads acceptance as one condition, in which the numbering of the graph shows up in
the depth of the keys only.
-/

namespace Zryna.Layout.Aggregate

open Raw

/-- Atomically verified target layout snapshot. -/
structure VerifiedLayouts where
  sourceMap : ℕ
  universeIdentity : List ℕ
  target : StorageTarget
  records : List LayoutRecord
  fingerprint : List ℕ
deriving DecidableEq

inductive LayoutFailure where
  | rejected (diagnostics : List Diagnostic)
  | panicked
deriving DecidableEq

def Event.diagnostic : Event Diagnostic → Diagnostic
  | .push diagnostic | .limit diagnostic => diagnostic

/-- The diagnostics of a failed pass. -/
def finish (diagnostics : List Diagnostic) : LayoutFailure :=
  .rejected (if diagnostics = [] then
    [globalError "ZRYNA-L3003" "layout verification failed without a retained detail"
      "report the smallest reproducible graph"]
  else diagnostics)

/-- Goes on with the value of a pass that reported nothing. -/
def passed {α : Type} (pass : Report Diagnostic (Option α)) : Outcome LayoutFailure α :=
  match pass.events, pass.value with
  | [], some value => .done value
  | events, _ => .fault (finish (events.map Event.diagnostic))

/-- Goes on with the records of a target. -/
def recordsOf : Outcome Unit (Except (List Diagnostic) (List LayoutRecord)) →
    Outcome LayoutFailure (List LayoutRecord)
  | .timeout => .timeout
  | .fault () => .fault .panicked
  | .done (.error diagnostics) => .fault (finish diagnostics)
  | .done (.ok records) => .done records

/-- Goes on with a fingerprint. -/
def sealedOf : Except Diagnostic (List ℕ) → Outcome LayoutFailure (List ℕ)
  | .error diagnostic => .fault (finish [diagnostic])
  | .ok fingerprint => .done fingerprint

section Verify

variable (sha256 : List ℕ → List ℕ)

/-- The passes over the canonical types. -/
def verifyCanonical (sources : SourceMap) (target : StorageTarget) (canonical : CanonicalMap) :
    Outcome LayoutFailure VerifiedLayouts := do
  passed (some <$> rejectByValueCycles canonical.types)
  let linearRecords ← recordsOf
    (computeRecords canonical.types canonical.universeIdentity .linear32V1)
  let linuxRecords ← recordsOf
    (computeRecords canonical.types canonical.universeIdentity .linuxX8664V1)
  let linearFingerprint ← sealedOf (sealTarget sha256 .linear32V1 linearRecords)
  let linuxFingerprint ← sealedOf (sealTarget sha256 .linuxX8664V1 linuxRecords)
  let (records, fingerprint) := match target with
    | .linear32V1 => (linearRecords, linearFingerprint)
    | .linuxX8664V1 => (linuxRecords, linuxFingerprint)
  pure ⟨sources.id, canonical.universeIdentity, target, records, fingerprint⟩

variable (graph : Graph) (sources : SourceMap) (target : StorageTarget)

/-- The passes after the keys. -/
def verifyKeyed (keys : List CanonicalKey) : Outcome LayoutFailure VerifiedLayouts := do
  let canonical ← passed (assignTypeIds sha256 graph keys)
  verifyCanonical sha256 sources target canonical

/-- Verifies one complete raw graph and seals its layouts. -/
def verify : Outcome LayoutFailure VerifiedLayouts := do
  passed (some <$> preflight graph sources)
  let keys ← passed (canonicalKeys graph)
  verifyKeyed sha256 graph sources target keys

end Verify

/-! ### Accepted graphs -/

theorem passed_eq_done {α : Type} {pass : Report Diagnostic (Option α)} {value : α} :
    passed pass = .done value ↔ pass.Clean ∧ pass.value = some value := by
  obtain ⟨result, events⟩ := pass
  unfold passed Report.Clean
  cases events with
  | nil => cases result <;> simp
  | cons event events => simp

theorem recordsOf_eq_done {result : Outcome Unit (Except (List Diagnostic) (List LayoutRecord))}
    {records : List LayoutRecord} :
    recordsOf result = .done records ↔ result = .done (.ok records) := by
  cases result with
  | timeout => simp [recordsOf]
  | fault => simp [recordsOf]
  | done result => cases result <;> simp [recordsOf]

theorem sealedOf_eq_done {result : Except Diagnostic (List ℕ)} {fingerprint : List ℕ} :
    sealedOf result = .done fingerprint ↔ result = .ok fingerprint := by
  cases result <;> simp [sealedOf]

variable {layouts : VerifiedLayouts} {sha256 : List ℕ → List ℕ} {sources : SourceMap}
  {target : StorageTarget}

/-- What acceptance asks of the canonical types. -/
theorem verifyCanonical_eq_done {canonical : CanonicalMap} :
    verifyCanonical sha256 sources target canonical = .done layouts ↔
      (rejectByValueCycles canonical.types).Clean
      ∧ ∃ linear linux linearFingerprint linuxFingerprint,
        computeRecords canonical.types canonical.universeIdentity .linear32V1
          = .done (.ok linear)
        ∧ computeRecords canonical.types canonical.universeIdentity .linuxX8664V1
          = .done (.ok linux)
        ∧ sealTarget sha256 .linear32V1 linear = .ok linearFingerprint
        ∧ sealTarget sha256 .linuxX8664V1 linux = .ok linuxFingerprint
        ∧ layouts = ⟨sources.id, canonical.universeIdentity, target,
          match target with | .linear32V1 => linear | .linuxX8664V1 => linux,
          match target with
            | .linear32V1 => linearFingerprint
            | .linuxX8664V1 => linuxFingerprint⟩ := by
  unfold verifyCanonical
  simp only [Outcome.bind_eq_done, passed_eq_done, recordsOf_eq_done, sealedOf_eq_done,
    Report.clean_map, Report.value_map, and_true, exists_const, Outcome.pure_eq,
    Outcome.done.injEq]
  refine and_congr_right fun _ => ?_
  constructor
  · rintro ⟨linear, hlinear, linux, hlinux, fp, hfp, fp', hfp', rfl⟩
    refine ⟨linear, linux, fp, fp', hlinear, hlinux, hfp, hfp', ?_⟩
    cases target <;> rfl
  · rintro ⟨linear, linux, fp, fp', hlinear, hlinux, hfp, hfp', rfl⟩
    refine ⟨linear, hlinear, linux, hlinux, fp, hfp, fp', hfp', ?_⟩
    cases target <;> rfl

theorem verify_eq_done {graph : Graph} :
    verify sha256 graph sources target = .done layouts ↔ Admitted graph sources
      ∧ ∃ keys, Keyed graph keys ∧ WithinKeyDepth graph
        ∧ verifyKeyed sha256 graph sources target keys = .done layouts := by
  unfold verify
  simp only [Outcome.bind_eq_done, passed_eq_done, Report.clean_map, Report.value_map, and_true,
    exists_const, preflight_clean]
  refine and_congr_right fun hadmitted => exists_congr fun keys => ?_
  rw [canonicalKeys_eq hadmitted.keyChildrenInRange, and_assoc]

/-- The verifier never runs out of fuel. -/
theorem verify_ne_timeout (sha256 : List ℕ → List ℕ) (graph : Graph) (sources : SourceMap)
    (target : StorageTarget) : verify sha256 graph sources target ≠ .timeout := by
  have hpassed {α : Type} (pass : Report Diagnostic (Option α)) : passed pass ≠ .timeout := by
    unfold passed
    split <;> simp
  have hrecords (types : List TypeNode) (identity : List ℕ) (target : StorageTarget) :
      recordsOf (computeRecords types identity target) ≠ .timeout := by
    cases hresult : computeRecords types identity target with
    | timeout => exact absurd hresult computeRecords_ne_timeout
    | fault => simp [recordsOf]
    | done result => cases result <;> simp [recordsOf]
  have hsealed (result : Except Diagnostic (List ℕ)) : sealedOf result ≠ .timeout := by
    cases result <;> simp [sealedOf]
  simp [verify, verifyKeyed, verifyCanonical, Outcome.bind_eq_timeout, hpassed, hrecords, hsealed]

end Zryna.Layout.Aggregate
