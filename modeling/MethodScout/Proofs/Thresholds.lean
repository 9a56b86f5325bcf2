import MethodScout.Proofs.Outcomes
import MethodScout.Proofs.ReportParts

/-!
# Raising the thresholds

A threshold acts on its own category only. When thresholds are raised, a scan reads what it read before, and its report is
within the report from before. At a threshold of zero a category has all methods that are not left out.
-/

namespace MethodScout

def Settings.withThresholds (s : Settings) (calls branches : UInt32) : Settings :=
  { s with callThreshold := calls, branchThreshold := branches }

/-- What an outcome becomes when thresholds are raised: less is reported, but not in the categories without a threshold,
and what was read stays the same. -/
structure Outcome.Thins (low high : Outcome) : Prop where
  counts : low.summary.CountAlike high.summary
  unchanged : ∀ k, k ≠ .highCallCount → k ≠ .highBranchCount → high.report.category? k = low.report.category? k
  within : high.report.Within low.report
  classes_le : high.summary.classes ≤ low.summary.classes
  methods_le : high.summary.methods ≤ low.summary.methods

namespace Scan

variable {t : FileTree} {settings : Settings} {calls branches : UInt32} {paths : List PathText}

theorem readAlike_withThresholds (settings : Settings) (calls branches : UInt32) :
    settings.ReadAlike (settings.withThresholds calls branches) :=
  ⟨rfl, rfl⟩

theorem rule_of_withThresholds (hcalls : settings.callThreshold ≤ calls) (hbranches : settings.branchThreshold ≤ branches)
    {k : Category} {c : String} {m : Method} (h : k.Rule (settings.withThresholds calls branches) c m) :
    k.Rule settings c m := by
  cases k with
  | highCallCount => exact Nat.le_trans (UInt32.le_iff_toNat_le.mp hcalls) h
  | highBranchCount => exact Nat.le_trans (UInt32.le_iff_toNat_le.mp hbranches) h
  | _ => exact h

section

variable {low high : Outcome} {contents : List Content}

/-- A category whose threshold stays, if it has one, stays as it is. -/
theorem category_eq_of_withThresholds (hlow : low.report.IsOf (Reported settings contents))
    (hhigh : high.report.IsOf (Reported (settings.withThresholds calls branches) contents)) {k : Category}
    (hcalls : k = .highCallCount → calls = settings.callThreshold)
    (hbranches : k = .highBranchCount → branches = settings.branchThreshold) :
    high.report.category? k = low.report.category? k := by
  apply hhigh.category?_unique hlow
  intro c x
  constructor
  · exact Reported.imp id fun m => (Category.rule_congr hcalls hbranches).mp
  · exact Reported.imp id fun m => (Category.rule_congr hcalls hbranches).mpr

end

theorem summary_of_scanPaths {out : Outcome} (h : scanPaths t settings paths = .ok out) :
    out.summary.classes = out.report.classes.size ∧ out.summary.methods = out.report.methodCount := by
  obtain ⟨contents, -, rfl⟩ := scanPaths_eq_ok_iff_gather.mp h
  exact ⟨rfl, rfl⟩

/-- A class of the name that is reached has a method of the other name, and it is not left out. -/
def Declares (t : FileTree) (settings : Settings) (paths : List PathText) (c x : String) : Prop :=
  ∃ file, Reaches t settings paths file ∧ file.name = c ∧
    ∃ m ∈ file.methods, m.name = x ∧ settings.filter.excludes x = false

theorem tabulates_declares {k : Category} {out : Outcome} (h : scanPaths t settings paths = .ok out)
    (hrule : ∀ c m, k.Rule settings c m) : (out.report.categories.get k).Tabulates (Declares t settings paths) := by
  obtain ⟨contents, hcontents, rfl⟩ := scanPaths_eq_ok_iff_gather.mp h
  apply ((isOf_reported settings _ contents).categories k).congr
  intro c x
  simp only [Reported, Declares, mem_files_iff_reaches hcontents, hrule, and_true]

/-- Raising thresholds makes no difference to what is read, to why a scan fails and to the categories without a threshold
or with the same one. Everything that is reported was reported before. At a threshold of zero, all methods of all classes
that were decoded are in the category, but for those that are left out. -/
theorem scanPaths_thresholds_antitone (t : FileTree) (settings : Settings) (paths : List PathText) (calls branches : UInt32)
    (hcalls : settings.callThreshold ≤ calls) (hbranches : settings.branchThreshold ≤ branches) :
    (∀ e, scanPaths t (settings.withThresholds calls branches) paths = .error e ↔
      scanPaths t settings paths = .error e) ∧
    (∀ low high, scanPaths t settings paths = .ok low →
      scanPaths t (settings.withThresholds calls branches) paths = .ok high → low.Thins high ∧
        (calls = settings.callThreshold →
          high.report.category? .highCallCount = low.report.category? .highCallCount) ∧
        (branches = settings.branchThreshold →
          high.report.category? .highBranchCount = low.report.category? .highBranchCount)) ∧
    ∀ out, scanPaths t settings paths = .ok out →
      (settings.callThreshold = 0 →
        (out.report.categories.get .highCallCount).Tabulates (Declares t settings paths)) ∧
      (settings.branchThreshold = 0 →
        (out.report.categories.get .highBranchCount).Tabulates (Declares t settings paths)) := by
  have halike := readAlike_withThresholds settings calls branches
  refine ⟨fun e => scanPaths_eq_error_iff_of_readAlike halike, ?_, ?_⟩
  · intro low high hlow hhigh
    obtain ⟨contents, hof, hof', hcounts⟩ := exists_contents_of_readAlike halike hlow hhigh
    have hwithin : high.report.Within low.report := hof'.within hof fun k c x =>
      Reported.imp id fun m => rule_of_withThresholds hcalls hbranches
    refine ⟨⟨hcounts, ?_, hwithin, ?_, ?_⟩, ?_, ?_⟩
    · intro k hk hk'
      exact category_eq_of_withThresholds hof hof' (fun h => absurd h hk) fun h => absurd h hk'
    · rw [(summary_of_scanPaths hlow).1, (summary_of_scanPaths hhigh).1]
      exact hwithin.classes.size_le
    · rw [(summary_of_scanPaths hlow).2, (summary_of_scanPaths hhigh).2]
      exact hwithin.methodCount_le
    · intro hsame
      exact category_eq_of_withThresholds hof hof' (fun _ => hsame) nofun
    · intro hsame
      exact category_eq_of_withThresholds hof hof' nofun fun _ => hsame
  · -- every count is at least zero, so that the rule of the category holds of all methods
    intro out h
    constructor
    · intro hzero
      apply tabulates_declares h
      intro c m
      simp [Category.Rule, hzero]
    · intro hzero
      apply tabulates_declares h
      intro c m
      simp [Category.Rule, hzero]

/-- Settings under which any number of calls is high. -/
def anyCalls : Settings := { callThreshold := 0 }

theorem scanPaths_thresholds_antitone_from_zero :
    ∃ low high, scanPaths jobTree anyCalls ["app"] = .ok low ∧
      scanPaths jobTree (anyCalls.withThresholds 1 5) ["app"] = .ok high ∧
      (low.report.categories.get .highCallCount).get? "Job" = some (.ofList ["run"]) ∧
      (high.report.categories.get .highCallCount).get? "Job" = none ∧ low.Thins high ∧
      high.report.category? .highBranchCount = low.report.category? .highBranchCount ∧
      (low.report.categories.get .highCallCount).Tabulates (Declares jobTree anyCalls ["app"]) := by
  obtain ⟨-, hthins, hzero⟩ := scanPaths_thresholds_antitone jobTree anyCalls ["app"] 1 5 (by decide) (by decide)
  have hlow : (scanPaths jobTree anyCalls ["app"]).toOption.map
      (fun out => (out.report.categories.get .highCallCount).get? "Job") = some (some (.ofList ["run"])) := by
    decide +kernel
  have hhigh : (scanPaths jobTree (anyCalls.withThresholds 1 5) ["app"]).toOption.map
      (fun out => (out.report.categories.get .highCallCount).get? "Job") = some none := by
    decide +kernel
  obtain ⟨low, hlow, hrun⟩ := Attempt.toOption_map_eq_some.mp hlow
  obtain ⟨high, hhigh, hnone⟩ := Attempt.toOption_map_eq_some.mp hhigh
  obtain ⟨hthin, -, hbranches⟩ := hthins low high hlow hhigh
  exact ⟨low, high, hlow, hhigh, hrun, hnone, hthin, hbranches rfl, (hzero low hlow).1 rfl⟩

end Scan

end MethodScout
