import ShaderReflect.CommandLine.Run
import ShaderReflect.Proofs.Interleaving
import ShaderReflect.Proofs.Report.Json
import ShaderReflect.Proofs.Visits

/-!
# The command line deals with each file on its own

The files of a command line share one configuration, which holds the words of the file that was
decoded last. Nothing of this shows: what a file adds to the results is what a run on that file
alone gives (specification, 6).

The declarations of each file are gone through in orders of its own, which the run on the file alone
need not repeat. They make no difference to the element of a file, and to whether it fails; but they
can decide which violation its error line names. So elements are those of any run on the file alone,
and error lines are those of a run that goes through the declarations in the same orders.

The report is a text. It is told apart from what has a say in it: it is the one text that
`Json.pretty` writes of the array of all elements, and by the grammar of JSON it says this array
(`Json.Says`).

* `settings_addFile`: a file leaves the settings as they are.
* `results_addFile`: what a file adds depends on the settings only, not on the words of the file
  before or on the results so far.
* `addFile_cases`: a file alone gives one element, or one error line and a failure.
* `run_finished_visits`: whether a file alone comes to its end does not depend on orders.
* `run_finished`: files in a row give what they give alone, one after the other.
* `elements_inRow`, `errors_inRow`, `status_inRow`: what this means for the parts of the results.
* `perform_eachAlone`: so does a whole run, whose status is one exactly if a file has failed.

Where files are found is a parameter (`Files`), with no law: what is read is read once for each path
that is given, from where the run starts. A run in which a file overflows has no report and is left
out, by the hypothesis that each file alone comes to its end.
-/

namespace ShaderReflect.CommandLine

/-! ## Statements -/

/-- A file that can be read, decoded and reflected, with its reflection. -/
def Reflects (c : Config) (read : String → Except FileError (List UInt8)) (path : String)
    (r : Reflection) : Prop :=
  ∃ bytes words, read path = .ok bytes ∧ wordsOfBytes bytes = .ok words ∧
    ({ c with binary := some words } : Config).reflect.result = .ok r

/-- A file that cannot be read, decoded or reflected in a run, with the reason. -/
inductive Fails (c : Config) (read : String → Except FileError (List UInt8)) (visits : Visits)
    (path : String) : FileFault → Prop
  | unreadable {e} (h : read path = .error e) : Fails c read visits path (.unreadable e)
  | undecodable {bytes f} (hread : read path = .ok bytes) (h : wordsOfBytes bytes = .error f) :
      Fails c read visits path (.undecodable f)
  | unreflectable {bytes words f} (hread : read path = .ok bytes)
      (hwords : wordsOfBytes bytes = .ok words)
      (h : (({ c with binary := some words } : Config).reflect visits).result =
        .error (.fault f)) : Fails c read visits path (.unreflectable f)

/-- What a run on one file gives. -/
def alone (o : Options) (read : String → Except FileError (List UInt8)) (path : String)
    (visits : Visits := {}) : Results :=
  (runUnder o read [path] fun _ => visits).1

/-- The results of some files are those of each file alone, in order. A file that can be reflected
gives one element and no error line, and any other file one error line and no element. In whatever
orders the declarations of a file are gone through, its element is the same; its error line is that
of a run on the file alone that goes through them in the same orders. -/
structure EachAlone (o : Options) (read : String → Except FileError (List UInt8))
    (visits : Nat → Visits) (paths : List String) (r : Results) : Prop where
  elements : r.elements = paths.flatMap fun path => (alone o read path).elements
  errors : r.errors = (paths.mapIdx fun k path => (alone o read path (visits k)).errors).flatten
  reflected : ∀ path ∈ paths, ∀ reflection, Reflects (config o) read path reflection →
    ∃ element, Report.fileJson path reflection = .ok element ∧
      ∀ v, (alone o read path v).elements = [element] ∧ (alone o read path v).errors = []
  failed : ∀ path ∈ paths, (¬∃ reflection, Reflects (config o) read path reflection) →
    ∀ v, ∃ f, Fails (config o) read v path f ∧
      (alone o read path v).elements = [] ∧ (alone o read path v).errors = [f.message path]

/-- A whole run ends with a status and error lines and leaves a text, if the text can be written. -/
def Leaves {σ : Type} (files : Files σ) (o : Options) (folder : σ) (visits : Nat → Visits)
    (text : String) (errors : List String) (n : Nat) : Prop :=
  match o.outPath with
  | none => perform files o folder visits = { status := n, output := text, errors, folder }
  | some path => ∀ folder', files.write folder path text.toUTF8.toList = .ok folder' →
      perform files o folder visits = { status := n, errors, folder := folder' }

section

variable {read : String → Except FileError (List UInt8)} {c : Config} {p q : Progress}
  {path : String} {paths : List String} {v w : Visits} {visits : Nat → Visits} {o : Options}

theorem Fails.not_reflects {f : FileFault} (h : Fails c read v path f) (r : Reflection) :
    ¬Reflects c read path r := by
  rintro ⟨bytes, words, hread, hwords, hr⟩
  cases h with
  | unreadable h => simp [hread] at h
  | undecodable hread' h =>
    obtain rfl := Except.ok.inj (hread.symm.trans hread')
    simp [hwords] at h
  | unreflectable hread' hwords' h =>
    obtain rfl := Except.ok.inj (hread.symm.trans hread')
    obtain rfl := Except.ok.inj (hwords.symm.trans hwords')
    rw [Config.reflect_visits_eq_ok_iff _ _ v] at hr
    simp [hr] at h

/-- A file has one reflection. -/
theorem Reflects.unique {r s : Reflection} (h : Reflects c read path r)
    (h' : Reflects c read path s) : r = s := by
  obtain ⟨bytes, words, hread, hwords, hr⟩ := h
  obtain ⟨bytes', words', hread', hwords', hs⟩ := h'
  obtain rfl := Except.ok.inj (hread.symm.trans hread')
  obtain rfl := Except.ok.inj (hwords.symm.trans hwords')
  exact Except.ok.inj (hr.symm.trans hs)

/-! ## Results in a row -/

namespace Results

/-- The results of files and of others after them. -/
def append (r s : Results) : Results where
  failures := r.failures + s.failures
  errors := r.errors ++ s.errors
  elements := r.elements ++ s.elements

theorem empty_append (r : Results) : append {} r = r := by
  simp [append]

theorem append_empty (r : Results) : r.append {} = r := by
  simp [append]

theorem append_assoc (r s t : Results) : (r.append s).append t = r.append (s.append t) := by
  simp [append, Nat.add_assoc, List.append_assoc]

end Results

/-! ## One file -/

/-- Two configurations differ in their words only. -/
def SameSettings (c d : Config) : Prop := { c with binary := none } = { d with binary := none }

theorem SameSettings.withWords {d : Config} (h : SameSettings c d) (binary : Option (List Word)) :
    { c with binary } = { d with binary } :=
  congrArg (fun c : Config => { c with binary }) h

/-- Reflecting a file leaves the configuration as it is. -/
theorem config_reflectFile (h : reflectFile p path v = .ok q) : q.config = p.config := by
  unfold reflectFile at h
  split at h
  · cases h
  · obtain rfl := Except.ok.inj h
    rfl
  · rw [bind_eq_ok_iff] at h
    obtain ⟨element, _, h⟩ := h
    obtain rfl := Except.ok.inj h
    rfl

/-- **A file leaves the settings as they are.** -/
theorem settings_addFile (h : addFile read p path v = .ok q) : SameSettings q.config p.config := by
  unfold addFile at h
  split at h
  · obtain rfl := Except.ok.inj h
    rfl
  · rw [config_reflectFile h]
    rfl

theorem results_reflectFile (p : Progress) (path : String) (v : Visits) :
    (·.results) <$> reflectFile p path v =
      (fun q => p.results.append q.results) <$> reflectFile { config := p.config } path v := by
  unfold reflectFile
  cases (p.config.reflect v).result with
  | error e =>
    cases e with
    | fault f => simp [Results.append, Results.fail]
    | overflow o => rfl
  | ok r =>
    cases hreport : Report.fileJson path r with
    | error o => simp [hreport]
    | ok element => simp [hreport, Results.append, Results.add]

/-- **What a file adds depends on the settings only.** -/
theorem results_addFile (h : SameSettings p.config c) :
    (·.results) <$> addFile read p path v =
      (fun q => p.results.append q.results) <$> addFile read { config := c } path v := by
  unfold addFile
  cases load read path with
  | error f => simp [Results.append, Results.fail]
  | ok words =>
    have hwords : { p.config with binary := some words } = { c with binary := some words } :=
      h.withWords _
    simp only [hwords]
    exact results_reflectFile _ path v

/-- The words of a file come from its bytes. -/
theorem load_eq_ok_iff {words : List Word} :
    load read path = .ok words ↔
      ∃ bytes, read path = .ok bytes ∧ wordsOfBytes bytes = .ok words := by
  unfold load
  cases read path with
  | error e => simp
  | ok bytes => cases h : wordsOfBytes bytes <;> simp [Except.mapError, h]

theorem fails_of_load {f : FileFault} (h : load read path = .error f) :
    Fails c read v path f := by
  unfold load at h
  split at h
  · rename_i e hread
    obtain rfl := Except.error.inj h
    exact .unreadable hread
  · rename_i bytes hread
    cases hwords : wordsOfBytes bytes with
    | error f' =>
      rw [hwords] at h
      obtain rfl := Except.error.inj h
      exact .undecodable hread hwords
    | ok words =>
      rw [hwords] at h
      cases h

/-- **A file alone** gives one element, or one error line and a failure. -/
theorem addFile_cases (h : addFile read { config := c } path v = .ok q) :
    (∃ r element, Reflects c read path r ∧ Report.fileJson path r = .ok element ∧
      q.results = { elements := [element] }) ∨
    ∃ f, Fails c read v path f ∧ q.results = { failures := 1, errors := [f.message path] } := by
  unfold addFile at h
  split at h
  · rename_i f hload
    obtain rfl := Except.ok.inj h
    exact .inr ⟨f, fails_of_load hload, rfl⟩
  · rename_i words hload
    obtain ⟨bytes, hread, hwords⟩ := load_eq_ok_iff.mp hload
    unfold reflectFile at h
    split at h
    · cases h
    · rename_i f hreflect
      obtain rfl := Except.ok.inj h
      exact .inr ⟨.unreflectable f, .unreflectable hread hwords hreflect, rfl⟩
    · rename_i r hreflect
      rw [bind_eq_ok_iff] at h
      obtain ⟨element, helement, h⟩ := h
      obtain rfl := Except.ok.inj h
      rw [Config.reflect_visits_eq_ok_iff _ v {}] at hreflect
      exact .inl ⟨r, element, ⟨bytes, words, hread, hwords, hreflect⟩, helement, rfl⟩

theorem reflectFile_eq_error_iff {e : Overflow} :
    reflectFile p path v = .error e ↔ reflectFile p path w = .error e := by
  have halike := p.config.reflect_visits v w
  unfold reflectFile
  generalize (p.config.reflect v).result = x at halike ⊢
  generalize (p.config.reflect w).result = y at halike ⊢
  cases halike with
  | same => exact Iff.rfl
  | violations => exact iff_of_false nofun nofun

/-- Whether a file overflows does not depend on the orders in which its declarations are gone
through. -/
theorem addFile_eq_error_iff {e : Overflow} :
    addFile read p path v = .error e ↔ addFile read p path w = .error e := by
  unfold addFile
  cases load read path with
  | error f => exact Iff.rfl
  | ok words => exact reflectFile_eq_error_iff

/-! ## Files in a row -/

/-- A run on one file finishes if the file can be dealt with. -/
theorem exists_addFile_of_run (h : (run read p [path] visits).2 = .finished) :
    ∃ q, addFile read p path (visits 0) = .ok q ∧ run read p [path] visits = (q, .finished) := by
  unfold run at h ⊢
  cases hq : addFile read p path (visits 0) with
  | error o => rw [hq] at h; cases h
  | ok q => exact ⟨q, rfl, rfl⟩

/-- If one run on a file finishes, all do. -/
theorem run_finished_visits (h : (run read p [path]).2 = .finished) (visits : Nat → Visits) :
    (run read p [path] visits).2 = .finished := by
  obtain ⟨q, hq, -⟩ := exists_addFile_of_run h
  unfold run
  cases hv : addFile read p path (visits 0) with
  | error e =>
    rw [addFile_eq_error_iff.mp hv] at hq
    cases hq
  | ok q => rfl

/-- What files give one after the other if each gives what it gives alone. -/
def inRow (o : Options) (read : String → Except FileError (List UInt8)) :
    List String → (Nat → Visits) → Results
  | [], _ => {}
  | path :: paths, visits =>
    (alone o read path (visits 0)).append (inRow o read paths fun k => visits (k + 1))

/-- **Files in a row give what they give alone**, one after the other. -/
theorem run_finished (hsettings : SameSettings p.config (config o)) (visits : Nat → Visits)
    (hall : ∀ path ∈ paths, (runUnder o read [path]).2 = .finished) :
    ∃ q, run read p paths visits = (q, .finished) ∧
      q.results = p.results.append (inRow o read paths visits) := by
  induction paths generalizing p visits with
  | nil => exact ⟨p, rfl, (Results.append_empty _).symm⟩
  | cons path paths ih =>
    obtain ⟨q, hq, hrun⟩ := exists_addFile_of_run
      (run_finished_visits (hall path List.mem_cons_self) fun _ => visits 0)
    -- The same file after others has been dealt with, and leaves the settings.
    have hresults : (·.results) <$> addFile read p path (visits 0) =
        (fun q => p.results.append q.results) <$>
          addFile read { config := config o } path (visits 0) := results_addFile hsettings
    rw [hq] at hresults
    obtain ⟨q', hq', hq'results⟩ := map_eq_ok_iff.mp hresults
    have hsettings' : SameSettings q'.config (config o) :=
      (settings_addFile hq').trans hsettings
    have halone : alone o read path (visits 0) = q.results :=
      congrArg (fun x => x.1.results) hrun
    obtain ⟨t, ht, htresults⟩ := ih hsettings' (fun k => visits (k + 1)) fun path hp =>
      hall path (List.mem_cons_of_mem _ hp)
    refine ⟨t, ?_, ?_⟩
    · rw [run, hq']
      exact ht
    · rw [htresults, hq'results, Results.append_assoc, inRow, halone]

end

/-! ## A whole run -/

variable {o : Options} {read : String → Except FileError (List UInt8)} {path : String}
  {paths : List String} {visits : Nat → Visits}

/-- A run on files that can be dealt with gives what each of them gives alone. -/
theorem runUnder_eq (visits : Nat → Visits)
    (hall : ∀ path ∈ paths, (runUnder o read [path]).2 = .finished) :
    runUnder o read paths visits = (inRow o read paths visits, .finished) := by
  obtain ⟨q, hq, hresults⟩ := run_finished (p := { config := config o }) rfl visits hall
  unfold runUnder
  simp only [hq, hresults, Results.empty_append]

/-- What a file gives alone is known from its reflection, or from why there is none. -/
theorem alone_cases (h : (runUnder o read [path]).2 = .finished) (v : Visits) :
    (∃ r element, Reflects (config o) read path r ∧ Report.fileJson path r = .ok element ∧
      alone o read path v = { elements := [element] }) ∨
    ∃ f, Fails (config o) read v path f ∧
      alone o read path v = { failures := 1, errors := [f.message path] } := by
  obtain ⟨q, hq, hrun⟩ := exists_addFile_of_run (run_finished_visits h fun _ => v)
  unfold alone runUnder
  rw [hrun]
  exact addFile_cases hq

/-- A file fails alone exactly if it has no reflection. -/
theorem failures_alone_pos (h : (runUnder o read [path]).2 = .finished) (v : Visits) :
    0 < (alone o read path v).failures ↔ ¬∃ r, Reflects (config o) read path r := by
  rcases alone_cases h v with ⟨r, element, hr, _, halone⟩ | ⟨f, hf, halone⟩
  · simpa [halone] using ⟨r, hr⟩
  · simpa [halone] using hf.not_reflects

/-- The element of a file does not depend on the orders in which its declarations are gone
through. -/
theorem elements_alone (h : (runUnder o read [path]).2 = .finished) (v : Visits) :
    (alone o read path v).elements = (alone o read path).elements := by
  rcases alone_cases h v with ⟨r, element, hr, helement, hv⟩ | ⟨f, hf, hv⟩ <;>
    rcases alone_cases h {} with ⟨r', element', hr', helement', hd⟩ | ⟨f', hf', hd⟩
  · obtain rfl := hr.unique hr'
    obtain rfl := Except.ok.inj (helement.symm.trans helement')
    rw [hv, hd]
  · exact absurd hr (hf'.not_reflects r)
  · exact absurd hr' (hf.not_reflects r')
  · rw [hv, hd]

theorem elements_inRow (visits : Nat → Visits)
    (hall : ∀ path ∈ paths, (runUnder o read [path]).2 = .finished) :
    (inRow o read paths visits).elements =
      paths.flatMap fun path => (alone o read path).elements := by
  induction paths generalizing visits with
  | nil => rfl
  | cons path paths ih =>
    rw [List.forall_mem_cons] at hall
    rw [List.flatMap_cons, ← ih (fun k => visits (k + 1)) hall.2,
      ← elements_alone hall.1 (visits 0)]
    rfl

theorem errors_inRow (visits : Nat → Visits) : (inRow o read paths visits).errors =
    (paths.mapIdx fun k path => (alone o read path (visits k)).errors).flatten := by
  induction paths generalizing visits with
  | nil => rfl
  | cons path paths ih =>
    rw [List.mapIdx_cons, List.flatten_cons, ← ih fun k => visits (k + 1)]
    rfl

/-- There is a failure exactly if one of the files has no reflection. -/
theorem failures_inRow_pos (visits : Nat → Visits)
    (hall : ∀ path ∈ paths, (runUnder o read [path]).2 = .finished) :
    0 < (inRow o read paths visits).failures ↔
      ∃ path ∈ paths, ¬∃ r, Reflects (config o) read path r := by
  induction paths generalizing visits with
  | nil => simp [inRow]
  | cons path paths ih =>
    rw [List.forall_mem_cons] at hall
    have hsum : (inRow o read (path :: paths) visits).failures =
        (alone o read path (visits 0)).failures +
          (inRow o read paths fun k => visits (k + 1)).failures := rfl
    rw [hsum, Nat.add_pos_iff_pos_or_pos, failures_alone_pos hall.1, ih _ hall.2,
      List.exists_mem_cons_iff]

theorem eachAlone_inRow (hall : ∀ path ∈ paths, (runUnder o read [path]).2 = .finished) :
    EachAlone o read visits paths (inRow o read paths visits) where
  elements := elements_inRow visits hall
  errors := errors_inRow visits
  reflected path hp r hr := by
    have hone : ∀ v, ∃ element, Report.fileJson path r = .ok element ∧
        alone o read path v = { elements := [element] } := by
      intro v
      rcases alone_cases (hall path hp) v with ⟨r', element, hr', helement, halone⟩ | ⟨f, hf, _⟩
      · obtain rfl := Reflects.unique hr hr'
        exact ⟨element, helement, halone⟩
      · exact absurd hr (hf.not_reflects r)
    obtain ⟨element, helement, -⟩ := hone {}
    refine ⟨element, helement, fun v => ?_⟩
    obtain ⟨element', helement', halone⟩ := hone v
    obtain rfl := Except.ok.inj (helement.symm.trans helement')
    exact ⟨by rw [halone], by rw [halone]⟩
  failed path hp hno v := by
    rcases alone_cases (hall path hp) v with ⟨r, _, hr, _, _⟩ | ⟨f, hf, halone⟩
    · exact absurd ⟨r, hr⟩ hno
    · exact ⟨f, hf, by rw [halone], by rw [halone]⟩

/-- A run fails exactly if one of its files has no reflection. -/
theorem status_inRow (visits : Nat → Visits)
    (hall : ∀ path ∈ paths, (runUnder o read [path]).2 = .finished) :
    status (inRow o read paths visits) = 1 ∧
        (∃ path ∈ paths, ¬∃ r, Reflects (config o) read path r) ∨
      status (inRow o read paths visits) = 0 ∧
        ∀ path ∈ paths, ∃ r, Reflects (config o) read path r := by
  have hpos := failures_inRow_pos visits hall
  unfold status
  by_cases h : 0 < (inRow o read paths visits).failures
  · exact .inl ⟨if_pos h, hpos.mp h⟩
  · refine .inr ⟨if_neg h, fun path hp => ?_⟩
    by_contra hno
    exact h (hpos.mpr ⟨path, hp, hno⟩)

/-- **The command line deals with each file on its own**, if no file makes it overflow. What it
writes is the JSON array of the elements: the array written as a document, which says the array by
the grammar of JSON. -/
theorem perform_eachAlone {σ : Type} (files : Files σ) (o : Options) (folder : σ)
    (visits : Nat → Visits)
    (hall : ∀ path ∈ o.paths, (runUnder o (files.read folder) [path]).2 = .finished) :
    ∃ r n, EachAlone o (files.read folder) visits o.paths r ∧
      Leaves files o folder visits ((Json.array r.elements).pretty ++ "\n") r.errors n ∧
      Json.Says ((Json.array r.elements).pretty ++ "\n").toList (.array r.elements) ∧
      (n = 1 ∧ (∃ path ∈ o.paths, ¬∃ r, Reflects (config o) (files.read folder) path r) ∨
        n = 0 ∧ ∀ path ∈ o.paths, ∃ r, Reflects (config o) (files.read folder) path r) := by
  have hrun := runUnder_eq visits hall
  refine ⟨_, _, eachAlone_inRow hall, ?_, ?_, status_inRow visits hall⟩
  · unfold Leaves perform
    rw [hrun]
    cases hout : o.outPath with
    | none => rfl
    | some path =>
      intro folder' hwrite
      have hwrite' : files.write folder path (reportText _).toUTF8.toList = .ok folder' := hwrite
      simp only [hwrite']
  · rw [String.toList_append]
    exact Json.says_pretty (by decide) _

/-- Files of which one is a binary, one is cut within a word, and one is too short. -/
def sampleFiles : Files Unit where
  read _ path :=
    if path = "good" then
      .ok (ByteOrder.big.encode
        (Graph.sampleBinary (Graph.sampleAnnotations ++ Graph.sampleDeclarations)))
    else if path = "cut" then .ok [3, 2, 0x23]
    else if path = "short" then .ok [3, 2, 0x23, 7]
    else .error .missing
  write _ _ _ := .ok ()

/-- Options that name a good file twice, among others. -/
def sampleOptions : Options where
  paths := ["gone", "good", "cut", "short", "good"]
  uniqueNames := true

set_option maxRecDepth 100000 in
/-- Two of five files can be reflected, and the others leave a line each. -/
theorem sample_perform_eachAlone : ∃ r,
    EachAlone sampleOptions (sampleFiles.read ()) (fun _ => {}) sampleOptions.paths r ∧
    perform sampleFiles sampleOptions () =
      { status := 1, output := (Json.array r.elements).pretty ++ "\n", errors := r.errors,
        folder := () } ∧
    Json.Says ((Json.array r.elements).pretty ++ "\n").toList (.array r.elements) ∧
    r.elements.length = 2 ∧
    r.errors = ["cannot read 'gone': No such file or directory (os error 2)",
      "'cut' is not spirv: spirv binary is corrupted: byte length is not a multiple of word size",
      "cannot reflect 'short': spirv binary is corrupted: module is shorter than its header"] := by
  obtain ⟨r, n, heach, hleaves, hsays, hn⟩ :=
    perform_eachAlone sampleFiles sampleOptions () (fun _ => {}) (by decide +kernel)
  have hfails : ¬∃ r, Reflects (config sampleOptions) (sampleFiles.read ()) "gone" r :=
    fun ⟨r, hr⟩ => (Fails.unreadable rfl : Fails _ _ {} "gone" _).not_reflects r hr
  have hstatus : n = 1 := by
    rcases hn with ⟨hn, _⟩ | ⟨_, hall⟩
    · exact hn
    · exact absurd (hall "gone" (by decide)) hfails
  subst hstatus
  refine ⟨r, heach, hleaves, hsays, ?_, ?_⟩
  · rw [heach.elements]
    decide +kernel
  · rw [heach.errors]
    decide +kernel

end ShaderReflect.CommandLine
