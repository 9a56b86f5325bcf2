import MethodScout.Proofs.Outcomes
import MethodScout.Proofs.ReportParts

/-!
# Leaving out more methods

When more names are left out, a scan reads what it read before, and its report is what is left of the report without those
names.
-/

namespace MethodScout

def Settings.excluding (s : Settings) (names : NameSet) : Settings :=
  { s with filter := { s.filter with names := s.filter.names ∪ names } }

namespace Scan

variable {t : FileTree} {settings : Settings} {names : NameSet} {paths : List PathText}

theorem readAlike_excluding (settings : Settings) (names : NameSet) : settings.ReadAlike (settings.excluding names) :=
  ⟨rfl, rfl⟩

theorem excludes_excluding {x : String} :
    (settings.excluding names).filter.excludes x = false ↔ settings.filter.excludes x = false ∧ ¬x ∈ names := by
  simp only [Settings.excluding, MethodFilter.excludes, NameSet.mem_union, Bool.or_eq_false_iff, decide_eq_false_iff_not]
  tauto

theorem reported_excluding {contents : List Content} {k : Category} {c x : String} :
    Reported (settings.excluding names) contents k c x ↔ Reported settings contents k c x ∧ ¬x ∈ names := by
  have hrule (m : Method) : k.Rule (settings.excluding names) c m ↔ k.Rule settings c m :=
    Category.rule_congr (fun _ => rfl) fun _ => rfl
  constructor
  · intro h
    refine ⟨h.imp (fun hx => (excludes_excluding.mp hx).1) fun m => (hrule m).mp, ?_⟩
    obtain ⟨_, _, _, _, _, _, hx, _⟩ := h
    exact (excludes_excluding.mp hx).2
  · intro h
    obtain ⟨h, hx⟩ := h
    exact h.imp (fun hkept => excludes_excluding.mpr ⟨hkept, hx⟩) fun m => (hrule m).mpr

/-- Leaving out more names makes no difference to what is read and to why a scan fails, and takes just these names out of
the report. -/
theorem scanPaths_excluding_removes (t : FileTree) (settings : Settings) (names : NameSet) (paths : List PathText) :
    (∀ e, scanPaths t (settings.excluding names) paths = .error e ↔ scanPaths t settings paths = .error e) ∧
    ∀ out out', scanPaths t settings paths = .ok out → scanPaths t (settings.excluding names) paths = .ok out' →
      out'.report.IsRestOf out.report names ∧ out.summary.CountAlike out'.summary := by
  have halike := readAlike_excluding settings names
  refine ⟨fun e => scanPaths_eq_error_iff_of_readAlike halike, ?_⟩
  intro out out' h h'
  obtain ⟨contents, hof, hof', hcounts⟩ := exists_contents_of_readAlike halike h h'
  have hrest := hof'.congr fun _ _ _ => reported_excluding
  exact ⟨hrest.isRestOf hof, hcounts⟩

/-- A class with two synchronized methods. -/
def pairClass : Bytes :=
  [0xCA, 0xFE, 0xBA, 0xBE, 0, 0, 0, 52, 0, 6, 1, 0, 3, 74, 111, 98, 7, 0, 1, 1, 0, 3, 114, 117, 110, 1, 0, 3, 40, 41, 86,
   1, 0, 4, 115, 116, 111, 112, 0, 0x21, 0, 2, 0, 0, 0, 0, 0, 0, 0, 2, 0, 0x21, 0, 3, 0, 4, 0, 0, 0, 0x21, 0, 5, 0, 4,
   0, 0, 0, 0]

def pairTree : FileTree where
  workingDirectory := ["work"]
  nodes := [(["work", "app"], .directory), (["work", "app", "Job.class"], .file pairClass)]
  distinct := by decide

theorem scanPaths_excluding_removes_one_of_two :
    ∃ out out', scanPaths pairTree {} ["app"] = .ok out ∧
      scanPaths pairTree (Settings.excluding {} (.ofList ["run"])) ["app"] = .ok out' ∧
      out.report.classes.get? "Job" = some (.ofList ["run", "stop"]) ∧
      out'.report.classes.get? "Job" = some (.ofList ["stop"]) ∧
      out'.report.IsRestOf out.report (.ofList ["run"]) ∧ out.summary.CountAlike out'.summary := by
  have hold : (scanPaths pairTree {} ["app"]).toOption.map (fun out => out.report.classes.get? "Job") =
      some (some (.ofList ["run", "stop"])) := by decide +kernel
  have hnew : (scanPaths pairTree (Settings.excluding {} (.ofList ["run"])) ["app"]).toOption.map
      (fun out => out.report.classes.get? "Job") = some (some (.ofList ["stop"])) := by decide +kernel
  obtain ⟨out, h, hjob⟩ := Attempt.toOption_map_eq_some.mp hold
  obtain ⟨out', h', hjob'⟩ := Attempt.toOption_map_eq_some.mp hnew
  obtain ⟨-, hremoves⟩ := scanPaths_excluding_removes pairTree {} (.ofList ["run"]) ["app"]
  exact ⟨out, out', h, h', hjob, hjob', hremoves out out' h h'⟩

end Scan

end MethodScout
