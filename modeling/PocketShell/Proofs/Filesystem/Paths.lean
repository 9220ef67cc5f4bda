import PocketShell.Proofs.Command.Builtin
import PocketShell.Proofs.Filesystem.Reachable
import PocketShell.Proofs.Path

/-!
# Paths put together and paths written out

To go along a path and then along one that does not start at the root is to go along both joined by
a slash (`composes_of_relative`). The path of a directory, written out from its segments, leads back
to it from everywhere, so it names that directory and no other (`leadsBack_run`).
-/

namespace PocketShell

variable {root : Node} {working segments : List String} {first second : String}

/-! ## Paths put together -/

/-- A path that is joined from two is resolved by resolving the second where the first leads. -/
theorem Node.resolve?_append (hfirst : first ≠ "") (hsecond : Path.isAbsolute second = false) :
    root.resolve? working (first ++ "/" ++ second) =
      (root.resolve? working first).bind (root.resolve? · second) := by
  have hstart : Path.isAbsolute (first ++ "/" ++ second) = Path.isAbsolute first := by
    rw [String.append_assoc, Path.isAbsolute_append hfirst]
  simp only [resolve?, hstart, hsecond, Path.segments_append_separator, List.foldlM_append]
  rfl

namespace Filesystem

variable {fs : Filesystem}

/-- To go along `first` and then along `second` comes to the same as to go along both joined: either
both ways succeed and end in the same filesystem, with the same working directory, or both fail.
And whoever has gone along `first` finds at `second` what is found at the joined path. -/
structure Composes (fs : Filesystem) (first second : String) : Prop where
  changeDirectory_iff : ∀ last,
    (∃ middle, fs.changeDirectory first = .ok middle ∧ middle.changeDirectory second = .ok last) ↔
      fs.changeDirectory (first ++ "/" ++ second) = .ok last
  directory_iff : ∀ found,
    (∃ middle, fs.changeDirectory first = .ok middle ∧ middle.directory second = .ok found) ↔
      fs.directory (first ++ "/" ++ second) = .ok found

theorem directory_eq_ok {path : String} {found : Node} : fs.directory path = .ok found ↔
    ∃ segments, fs.root.resolve? fs.working path = some segments ∧
      fs.root.directoryAt? segments = some found := by
  rw [directory, bind_eq_ok]
  simp only [segmentsOf_eq_ok]
  refine exists_congr fun segments => and_congr_right fun _ => ?_
  cases fs.root.directoryAt? segments <;> simp

/-- Both halves of the joined path may go up, stay or end with slashes, but only the first may start
at the root: the slash between the two does not make the second absolute. -/
theorem composes_of_relative (hfirst : first ≠ "") (hsecond : Path.isAbsolute second = false) :
    Composes fs first second where
  changeDirectory_iff last := by
    simp only [changeDirectory_eq_ok, Node.resolve?_append hfirst hsecond, Option.bind_eq_some_iff]
    constructor
    · rintro ⟨-, ⟨there, hthere, rfl⟩, segments, hsegments, rfl⟩
      exact ⟨segments, ⟨there, hthere, hsegments⟩, rfl⟩
    · rintro ⟨segments, ⟨there, hthere, hsegments⟩, rfl⟩
      exact ⟨_, ⟨there, hthere, rfl⟩, segments, hsegments, rfl⟩
  directory_iff found := by
    simp only [changeDirectory_eq_ok, directory_eq_ok, Node.resolve?_append hfirst hsecond,
      Option.bind_eq_some_iff]
    constructor
    · rintro ⟨-, ⟨there, hthere, rfl⟩, segments, hsegments, hfound⟩
      exact ⟨segments, ⟨there, hthere, hsegments⟩, hfound⟩
    · rintro ⟨segments, ⟨there, hthere, hsegments⟩, hfound⟩
      exact ⟨_, ⟨there, hthere, rfl⟩, segments, hsegments, hfound⟩

/-- The standard directory of the homes is left and entered again, and its home is left twice. -/
theorem composes_of_relative_guest :
    "../tmp/..//" ≠ "" ∧ Path.isAbsolute "./home/guest/../.." = false ∧
      Composes (startAt (fun n => .ofNanoseconds n) "guest") "../tmp/..//" "./home/guest/../.." ∧
      (startAt (fun n => .ofNanoseconds n) "guest").segmentsOf "../tmp/..///./home/guest/../.." =
        .ok [] :=
  ⟨by decide, by decide, composes_of_relative (by decide) (by decide), rfl⟩

end Filesystem

/-! ## Paths written out -/

/-- Names that lead to a directory of the tree are walked one by one. -/
theorem Node.foldlM_step?_of_names {here : List String}
    (hnames : ∀ name ∈ segments, Path.isName name) (h : root.HasDirectory (here ++ segments)) :
    segments.foldlM root.step? here = some (here ++ segments) := by
  -- each step goes down, so the walk stands where the names before it lead
  induction segments generalizing here with
  | nil => simp
  | cons name rest ih =>
    obtain ⟨hname, hrest⟩ := List.forall_mem_cons.1 hnames
    obtain ⟨-, -, hdot, hdots⟩ := Path.isName_iff.1 hname
    obtain ⟨directory, hdirectory⟩ := h
    rw [directoryAt?_append, Option.bind_eq_some_iff] at hdirectory
    obtain ⟨above, habove, hbelow⟩ := hdirectory
    rw [directoryAt?_cons, Option.bind_eq_some_iff] at hbelow
    obtain ⟨next, hnext, hfound⟩ := hbelow
    have hstep : root.step? here name = some (here ++ [name]) := by
      simp [step?, hdot, hdots, habove, hnext]
    have hthere : root.HasDirectory (here ++ [name] ++ rest) := by
      refine ⟨directory, ?_⟩
      simp [directoryAt?_append, directoryAt?_cons, habove, hnext, hfound]
    rw [List.foldlM_cons, hstep]
    simpa using ih hrest hthere

/-- What is written out from names of a directory of the tree leads to it, wherever the walk could
have started. -/
theorem Node.resolve?_render (hnames : ∀ name ∈ segments, Path.isName name)
    (h : root.HasDirectory segments) (working : List String) :
    root.resolve? working (Path.render segments) = some segments := by
  rw [resolve?, Path.segments_render hnames, if_pos (Path.isAbsolute_render segments)]
  exact @foldlM_step?_of_names root segments [] hnames h

namespace Filesystem

open Command (Builtin.cd Builtin.pwd)

variable {fs : Filesystem} {ok : Time.Stamp → Prop}

/-- The paths of the directories of a tree, written out, are ways back to them. -/
structure LeadsBack (fs : Filesystem) : Prop where
  segments_eq : ∀ segments, fs.root.HasDirectory segments →
    Path.segments (Path.render segments) = segments
  resolved : ∀ segments, fs.root.HasDirectory segments → ∀ working,
    fs.root.resolve? working (Path.render segments) = some segments
  injective : ∀ segments others, fs.root.HasDirectory segments → fs.root.HasDirectory others →
    Path.render segments = Path.render others → segments = others
  /-- `pwd` shows a path with which `cd` comes back, wherever the shell has gone meanwhile. -/
  returns : ∀ processes around asked, ∃ path,
    (Builtin.pwd.run around asked).run ⟨fs, processes⟩ = .ok (.text path) ⟨fs, processes⟩ ∧
    ∀ elsewhere processes around given, given.first? = some path →
      (Builtin.cd.run around given).run ⟨{ fs with working := elsewhere }, processes⟩ =
        .ok (.text "") ⟨fs, processes⟩
  /-- To go to where one is changes nothing. -/
  stays : fs.changeDirectory fs.currentPath = .ok fs

theorem Sound.isName_of_hasDirectory (h : fs.Sound ok) {segments : List String}
    (hsegments : fs.root.HasDirectory segments) : ∀ name ∈ segments, Path.isName name := by
  obtain ⟨directory, hdirectory⟩ := hsegments
  exact (h.tree.directoryAt? hdirectory).1

/-- Where the path of the working directory leads from any other place. -/
theorem Sound.changeDirectory_currentPath (h : fs.Sound ok) (elsewhere : List String) :
    { fs with working := elsewhere }.changeDirectory fs.currentPath = .ok fs := by
  refine changeDirectory_eq_ok.2 ⟨fs.working, ?_, rfl⟩
  exact Node.resolve?_render (h.isName_of_hasDirectory h.working) h.working elsewhere

/-- What `cd` comes to where its directory is found. -/
theorem run_cd {around : Surroundings} {given : Command.Invocation} {path : String}
    {processes : ProcessTable} {changed : Filesystem} (hpath : given.first? = some path)
    (hchanged : fs.changeDirectory path = .ok changed) :
    (Builtin.cd.run around given).run ⟨fs, processes⟩ = .ok (.text "") ⟨changed, processes⟩ := by
  have hresult : (Change.changeDirectory path).result fs = .ok changed := hchanged
  simp only [Builtin.cd, hpath, Option.getD_some, EStateM.run_bind, EStateM.run_get]
  exact Command.Builtin.run_onTree hresult _

theorem Sound.leadsBack (h : fs.Sound ok) : LeadsBack fs where
  segments_eq segments hsegments := Path.segments_render (h.isName_of_hasDirectory hsegments)
  resolved segments hsegments :=
    Node.resolve?_render (h.isName_of_hasDirectory hsegments) hsegments
  injective segments others hsegments hothers heq := by
    rw [← Path.segments_render (h.isName_of_hasDirectory hsegments), heq,
      Path.segments_render (h.isName_of_hasDirectory hothers)]
  returns processes around asked :=
    ⟨fs.currentPath, rfl, fun elsewhere _ _ _ hgiven =>
      run_cd hgiven (h.changeDirectory_currentPath elsewhere)⟩
  stays := h.changeDirectory_currentPath fs.working

/-- In every filesystem that operations can lead to, the paths of directories lead back to them. -/
theorem leadsBack_run {user : String} (huser : Path.isName user) (clock : Nat → Time.Stamp)
    (operations : List Operation) : LeadsBack ((startAt clock user).run operations) :=
  (sound_run_startAt huser clock operations).leadsBack

/-- A guest goes down into a directory whose name has a blank and three dots in it. -/
theorem leadsBack_run_guest :
    Path.isName "guest" ∧
      ((startAt (fun n => .ofNanoseconds n) "guest").run
        [.createDirectory (.ofNanoseconds 10) "my ...", .changeDirectory "my ..."]).working =
          ["my ..."] ∧
      LeadsBack ((startAt (fun n => .ofNanoseconds n) "guest").run
        [.createDirectory (.ofNanoseconds 10) "my ...", .changeDirectory "my ..."]) :=
  ⟨by decide, rfl, leadsBack_run (by decide) _ _⟩

end Filesystem

end PocketShell
