import PocketShell.Proofs.Filesystem.Reachable
import PocketShell.Proofs.Tree.Trail
import PocketShell.Proofs.Words

/-!
# How paths are resolved

A path is resolved as if it were walked once, with the directories on the way kept in mind: it leads
to a directory of the tree if and only if every name in it is found where the walk stands when it
comes to the name, and else it is reported as it was given.
-/

namespace PocketShell.Filesystem

open Node (Trail)
open Node.Trail (reached? top walk?)
open Time (Stamp)

variable {fs : Filesystem} {path : String}

/-- What resolving a path comes to. A walk along the path in one pass stands at
`reached? fs.root fs.working path` after some of its segments. -/
structure Resolves (fs : Filesystem) (path : String) : Prop where
  /-- The segments are what the path falls into at its slashes. -/
  segments : ∀ parts, Text.FallsInto (· == Path.separator) path.toList parts ↔
    parts = Path.segments path
  /-- The two walks are at the same place after each segment, and fail at the same one. -/
  inStep : ∀ before after, Path.segments path = before ++ after →
    before.foldlM fs.root.step? (if Path.isAbsolute path then [] else fs.working) =
      (reached? fs.root fs.working path before).map Trail.path
  onePass : fs.segmentsOf path =
    match reached? fs.root fs.working path (Path.segments path) with
    | some trail => .ok trail.path
    | none => .error (.notFound path)
  /-- A path that is resolved leads to the innermost of the directories on the way. -/
  found : ∀ segments, fs.segmentsOf path = .ok segments → ∃ trail,
    reached? fs.root fs.working path (Path.segments path) = some trail ∧ segments = trail.path ∧
      fs.root.directoryAt? segments = some (top fs.root trail) ∧ (top fs.root trail).isDirectory ∧
      ∀ segment ∈ segments, Path.isName segment
  /-- A path is resolved when every name is that of a directory in the one in which the walk stands
  when it comes to the name. -/
  found_iff : (∃ segments, fs.segmentsOf path = .ok segments) ↔
    ∀ before name after trail, Path.segments path = before ++ name :: after →
      name ≠ "." → name ≠ ".." → reached? fs.root fs.working path before = some trail →
        ∃ directory, (top fs.root trail).subdirectory? name = some directory
  /-- A name that is none of a directory is not passed, whatever comes behind it. -/
  lost : ∀ before name after trail, Path.segments path = before ++ name :: after →
    name ≠ "." → name ≠ ".." → reached? fs.root fs.working path before = some trail →
    (∀ node, (top fs.root trail).child? name = some node → ¬node.isDirectory) →
      fs.segmentsOf path = .error (.notFound path)
  fault_eq : ∀ fault, fs.segmentsOf path = .error fault → fault = .notFound path

theorem segmentsOf_eq (h : fs.root.HasDirectory fs.working) (path : String) :
    fs.segmentsOf path = match reached? fs.root fs.working path (Path.segments path) with
      | some trail => .ok trail.path
      | none => .error (.notFound path) := by
  rw [segmentsOf, Node.resolve?, Trail.foldlM_step?_reached h]
  cases reached? fs.root fs.working path (Path.segments path) <;> rfl

theorem segmentsOf_eq_error {fault : Fault} (h : fs.segmentsOf path = .error fault) :
    fault = .notFound path := by
  rw [segmentsOf] at h
  split at h
  · cases h
  · exact (Except.error.inj h).symm

theorem exists_segmentsOf_iff (h : fs.root.HasDirectory fs.working) :
    (∃ segments, fs.segmentsOf path = .ok segments) ↔
      ∀ before name after trail, Path.segments path = before ++ name :: after →
        name ≠ "." → name ≠ ".." → reached? fs.root fs.working path before = some trail →
          ∃ directory, (top fs.root trail).subdirectory? name = some directory := by
  obtain ⟨start, hstart, -⟩ := Trail.exists_start h path
  have hreached : ∀ segments,
      reached? fs.root fs.working path segments = walk? fs.root start segments := by
    intro segments
    rw [reached?, hstart, Option.bind_some]
  simp only [segmentsOf_eq h, hreached]
  refine Iff.trans ?_ Trail.exists_walk_iff
  cases walk? fs.root start (Path.segments path) <;> simp

/-- A path is not resolved when the walk comes to a name that it does not find. -/
theorem segmentsOf_of_lost (h : fs.root.HasDirectory fs.working) {before after : List String}
    {name : String} {trail : Trail} (hsplit : Path.segments path = before ++ name :: after)
    (hdot : name ≠ ".") (hdots : name ≠ "..")
    (hreached : reached? fs.root fs.working path before = some trail)
    (hlost : ∀ node, (top fs.root trail).child? name = some node → ¬node.isDirectory) :
    fs.segmentsOf path = .error (.notFound path) := by
  cases hsegments : fs.segmentsOf path with
  | error fault => rw [segmentsOf_eq_error hsegments]
  | ok segments =>
    have hhops := (exists_segmentsOf_iff h).1 ⟨segments, hsegments⟩
    obtain ⟨directory, hfound⟩ := hhops before name after trail hsplit hdot hdots hreached
    obtain ⟨hchild, hdirectory⟩ := Node.subdirectory?_eq_some.1 hfound
    exact absurd hdirectory (hlost directory hchild)

/-- In a tidy tree, paths are resolved as they are walked in one pass. -/
theorem resolves_of_tidy (htree : fs.root.Tidy) (hworking : fs.root.HasDirectory fs.working)
    (path : String) : Resolves fs path where
  segments _ := Text.fallsInto_iff
  inStep before _ _ := Trail.foldlM_step?_reached hworking path before
  onePass := segmentsOf_eq hworking path
  found segments hsegments := by
    rw [segmentsOf_eq hworking] at hsegments
    split at hsegments
    · rename_i trail hreached
      cases hsegments
      have hstands := Trail.stands_of_reached hworking hreached
      exact ⟨trail, hreached, rfl, hstands.directoryAt?,
        Node.isDirectory_of_directoryAt? htree.isDirectory hstands.directoryAt?,
        hstands.named htree⟩
    · cases hsegments
  found_iff := exists_segmentsOf_iff hworking
  lost _ _ _ _ hsplit hdot hdots hreached hlost :=
    segmentsOf_of_lost hworking hsplit hdot hdots hreached hlost
  fault_eq _ := segmentsOf_eq_error

/-- A filesystem of a guest who has gone home. -/
def guestAtHome : Filesystem :=
  (startAt (fun n => .ofNanoseconds n) "guest").run [.changeDirectory "home/guest"]

/-- A path that goes above the root and down again, and one that goes through a file. -/
theorem resolves_of_tidy_guest :
    guestAtHome.root.Tidy ∧ guestAtHome.root.HasDirectory guestAtHome.working ∧
      guestAtHome.working = ["home", "guest"] ∧
      Resolves guestAtHome ".//../guest/../../../tmp/" ∧
      guestAtHome.segmentsOf ".//../guest/../../../tmp/" = .ok ["tmp"] ∧
      Resolves guestAtHome "welcome.txt/.." ∧
      guestAtHome.segmentsOf "welcome.txt/.." = .error (.notFound "welcome.txt/..") := by
  have hsound : guestAtHome.Sound fun _ => True := sound_run_startAt (by decide) _ _
  exact ⟨hsound.tidy, hsound.working, rfl, resolves_of_tidy hsound.tidy hsound.working _, rfl,
    resolves_of_tidy hsound.tidy hsound.working _, rfl⟩

end PocketShell.Filesystem
