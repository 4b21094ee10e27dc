import Ifj24.Command.Compiler
import Ifj24.Proofs.FilePlaces
import Ifj24.Proofs.LayoutIndependence
import Ifj24.Proofs.StringBytes

/-!
The cache shows only in the time that a compilation takes. Whatever is stored under a key is the
code of an earlier compilation with that key, and the key decides all that decides code: the
version, the settings and the source, but not the name of the file.
-/

open List

namespace Ifj24

section

namespace Bytes

theorem length_hexPair (b : UInt8) : (paddedDigits 16 2 b.toNat).length = 2 := by
  have hall : ∀ n < 256, (paddedDigits 16 2 n).length = 2 := by decide +kernel
  exact hall _ b.toNat_lt

def ofHexPair (ds : Bytes) : UInt8 := ds.foldl (fun n d => 16 * n + StringLiteral.hexValue d) 0

theorem ofHexPair_paddedDigits (b : UInt8) : ofHexPair (paddedDigits 16 2 b.toNat) = b := by
  have hall : ∀ n < 256, ofHexPair (paddedDigits 16 2 n) = n.toUInt8 := by decide +kernel
  rw [hall _ b.toNat_lt]
  simp

theorem length_hex (bytes : Bytes) : (hex bytes).length = 2 * bytes.length := by
  induction bytes with
  | nil => rfl
  | cons b bytes ih =>
    have hcons : hex (b :: bytes) = paddedDigits 16 2 b.toNat ++ hex bytes := flatMap_cons
    rw [hcons, length_append, length_hexPair, ih, length_cons]
    omega

theorem hex_injective (h : hex as = hex bs) : as = bs := by
  have hlen : as.length = bs.length := by
    have hdig := congrArg List.length h
    rw [length_hex, length_hex] at hdig
    omega
  induction as generalizing bs with
  | nil => exact (eq_nil_of_length_eq_zero hlen.symm).symm
  | cons a as ih =>
    cases bs with
    | nil => cases hlen
    | cons b bs =>
      have happend : paddedDigits 16 2 a.toNat ++ hex as = paddedDigits 16 2 b.toNat ++ hex bs := h
      obtain ⟨hfirst, hrest⟩ := append_inj happend (by rw [length_hexPair, length_hexPair])
      have hbyte : a = b := by
        rw [← ofHexPair_paddedDigits a, hfirst, ofHexPair_paddedDigits]
      rw [hbyte, ih hrest (Nat.succ.inj hlen)]

theorem not_mem_digits (n : Nat) (hbase : 1 < base) (hle : base ≤ 16) :
    Path.slash ∉ digits base n := by
  have hall : ∀ d : Fin 16, Path.slash ≠ ascii (Nat.digitChar d.val) := by decide
  intro hmem
  obtain ⟨d, hd, heq⟩ := digits_subset base n hbase _ hmem
  exact hall ⟨d, by omega⟩ heq

theorem not_mem_hex (bytes : Bytes) : Path.slash ∉ hex bytes := by
  intro hmem
  obtain ⟨b, -, hb⟩ := mem_flatMap.mp hmem
  rcases mem_append.mp hb with hb | hb
  · exact absurd (mem_replicate.mp hb).2 (by decide)
  · exact not_mem_digits b.toNat (by decide) (by decide) hb

end Bytes

end

section

namespace Machine

theorem grows_replace (temporary path content : Bytes) (s : Machine) :
    Grows (fun q data => q = Path.place s.here temporary ∨
        q = Path.place s.here path ∧ data = content) s
      ((Cache.replace temporary path content : StateM Machine (Except FileError Unit)) s).2 := by
  have hremove : ∀ s', Grows Nothing s'
      ((Surroundings.remove temporary : StateM Machine (Except FileError Unit)) s').2 :=
    fun s' => grows_change rfl fun _ h => grows_remove h
  unfold Cache.replace
  simp only [run_bind]
  rcases change_cases (x := Surroundings.writeFile temporary content) rfl s with
    ⟨s₁, hwrite, hrun⟩ | ⟨e, hrun⟩
  · simp only [hrun, run_bind]
    have hwritten := grows_writeFile hwrite
    rcases change_cases (x := Surroundings.rename temporary path) rfl s₁ with
      ⟨s₂, hrename, hrun⟩ | ⟨e, hrun⟩
    · simp only [hrun]
      refine (hwritten.imp fun _ _ => .inl).trans ((grows_rename hrename).imp ?_)
      -- What is moved is what was written just before.
      rintro q data ⟨hq, hheld⟩
      exact .inr ⟨hwritten.here ▸ hq, holds_writeFile hwrite hheld⟩
    · simp only [hrun]
      exact (hwritten.imp fun _ _ => .inl).trans (hremove s₁).of_nothing
  · simp only [hrun]
    exact (hremove s).of_nothing

def Temporary (place : List Bytes) : Prop :=
  ∃ front, place.getLast? = some (front ++ Bytes.ofString ".tmp")

theorem grows_put (c : Cache) (key : CacheKey) (code : Bytes) (s : Machine) :
    Grows (fun q data => Temporary q ∨ q = Path.place s.here (c.path key) ∧ data = code) s
      ((c.put key code : StateM Machine (Except FileError Unit)) s).2 := by
  unfold Cache.put
  rw [run_bind]
  have hmade : Grows Nothing s ((Files.makeDirectories (Path.parent (c.path key)) :
      StateM Machine (Except FileError Unit)) s).2 := grows_makeNames _ _ s
  generalize (Files.makeDirectories (Path.parent (c.path key)) :
    StateM Machine (Except FileError Unit)) s = made at hmade
  obtain ⟨made | made, s₁⟩ := made
  · exact hmade.of_nothing
  refine hmade.of_nothing.trans ?_
  rw [← hmade.here]
  dsimp only
  rw [run_bind]
  rcases makeTemporary_cases (Path.parent (c.path key)) (key.text ++ Bytes.ofString ".")
    (Bytes.ofString ".tmp") s₁ with ⟨e, hrun⟩ | ⟨n, s₂, hrun, hslash, htemp⟩
  · rw [hrun]
    exact .refl s₁
  · rw [hrun]
    have hfront : Path.slash ∉ key.text ++ Bytes.ofString "." ++ Bytes.ofNat n := by
      intro hmem
      rcases mem_append.mp hmem with hmem | hmem
      · exact hslash (mem_append_left _ hmem)
      · exact Bytes.not_mem_digits n (by decide) (by decide) hmem
    have hproper : Path.Proper (key.text ++ Bytes.ofString "." ++ Bytes.ofNat n ++
        Bytes.ofString ".tmp") := .append hfront (by decide) (by decide)
    refine (htemp.imp fun q _ hq => .inl ⟨_, hq⟩).trans ?_
    rw [← htemp.here]
    refine (grows_replace _ _ code s₂).imp ?_
    rintro q data (rfl | hentry)
    · exact .inl ⟨_, Path.getLast?_place_join hproper s₂.here [_]⟩
    · exact .inr hentry

end Machine

namespace Cache

theorem proper_entry (version fingerprint source : Bytes) :
    Path.Proper ((CacheKey.of version fingerprint source).text ++ suffix) :=
  .append (Bytes.not_mem_hex _) (by decide) (by decide)

theorem getLast?_place_path (c : Cache) (here : List Bytes) (version fingerprint source : Bytes) :
    (Path.place here (c.path (.of version fingerprint source))).getLast? =
      some ((CacheKey.of version fingerprint source).text ++ suffix) :=
  Path.getLast?_place_join (proper_entry version fingerprint source) here
    [c.directory, (CacheKey.of version fingerprint source).text.take 2]

theorem get?_cases (c : Cache) (key : CacheKey) (s : Machine) :
    ∃ found, (c.get? key : StateM Machine (Except FileError (Option Bytes))) s = (found, s) ∧
      ∀ code, found = .ok (some code) → s.files.Holds (Path.place s.here (c.path key)) code := by
  unfold get?
  rw [Machine.run_bind, Machine.run_stat]
  cases s.stat (c.path key) with
  | error e =>
    refine ⟨_, rfl, fun code hcode => ?_⟩
    split at hcode
    · cases hcode
    · cases hcode
  | ok info =>
    dsimp only
    rw [Machine.run_bind]
    split
    · exact ⟨_, rfl, fun code hcode => by cases hcode⟩
    · refine ⟨(s.readFile (c.path key)).map some, rfl, fun code hcode => ?_⟩
      cases hread : s.readFile (c.path key) with
      | error e =>
        rw [hread] at hcode
        cases hcode
      | ok content =>
        rw [hread] at hcode
        cases hcode
        exact Machine.readFile_eq_ok hread

end Cache

end

section

namespace CacheKey

theorem material_injective
    (h : material version fingerprint source = material version fingerprint' source') :
    fingerprint = fingerprint' ∧ Blake3.hash source = Blake3.hash source' := by
  have hlen : (Bytes.hex (Blake3.hash source)).length =
      (Bytes.hex (Blake3.hash source')).length := by
    rw [Bytes.length_hex, Bytes.length_hex, Blake3.length_hash, Blake3.length_hash]
  obtain ⟨hfront, hhex⟩ := append_inj' (append_cancel_right h) hlen
  exact ⟨append_cancel_left (append_cancel_right hfront), Bytes.hex_injective hhex⟩

end CacheKey

theorem Config.fingerprint_injective {c c' : Config} (h : c.fingerprint = c'.fingerprint) :
    c.options.strict = c'.options.strict ∧ c.options.comments = c'.options.comments := by
  unfold fingerprint at h
  generalize c.options.strict = strict at h
  generalize c'.options.strict = strict' at h
  generalize c.options.comments = comments at h
  generalize c'.options.comments = comments' at h
  revert strict strict' comments comments'
  decide

namespace Scanner

variable {s s' : Scanner}

theorem step_alike (h : s'.rest = s.rest) :
    (s'.step.errors = [] ↔ s.step.errors = []) ∧ s'.step.used = s.step.used ∧
      s'.step.token.content = s.step.token.content ∧ s'.step.next.rest = s.step.next.rest := by
  simp [step, h, Token.content]

theorem tokens_of_errors (h : s.step.errors ≠ []) : s.tokens.toOption = none := by
  rw [tokens]
  split
  · rfl
  · exact absurd ‹_› h

theorem contents_tokens (h : s'.rest = s.rest) :
    s.tokens.toOption.map (·.map Token.content) = s'.tokens.toOption.map (·.map Token.content) := by
  induction hn : s.rest.length using Nat.strongRecOn generalizing s s' with
  | ind n ih =>
    obtain ⟨herrors, hused, htoken, hnext⟩ := step_alike h
    by_cases hclean : s.step.errors = []
    · have hclean' := herrors.mpr hclean
      cases hlen : s.step.used with
      | zero =>
        rw [tokens_of_used_eq hclean hlen, tokens_of_used_eq hclean' (hused.trans hlen)]
        exact congrArg (fun content => some [content]) htoken.symm
      | succ used =>
        have hne : s.step.used ≠ 0 := by omega
        rw [tokens_of_used_ne hclean hne, tokens_of_used_ne hclean' (hused ▸ hne)]
        have hrest := ih _ (hn ▸ step_next_shorter hlen) hnext rfl
        generalize s.step.next.tokens = rest at hrest
        generalize s'.step.next.tokens = rest' at hrest
        cases rest with
        | error e =>
          cases rest' with
          | error e' => rfl
          | ok ts' => cases hrest
        | ok ts =>
          cases rest' with
          | error e' => cases hrest
          | ok ts' =>
            exact congrArg₂ (fun content contents => some (content :: contents)) htoken.symm
              (Option.some.inj hrest)
    · rw [tokens_of_errors hclean, tokens_of_errors (hclean ∘ herrors.mp)]

end Scanner

theorem code_of_file (hstrict : o'.strict = o.strict)
    (hcomments : o'.comments = o.comments) (file file' source : Bytes) {code : Bytes}
    (h : (Compile.code o file source).result = .ok code) :
    (Compile.code o' file' source).result = .ok code := by
  have hoptions : Compile.code o' file' source = Compile.code o file' source := by
    unfold Compile.code
    rw [hstrict, hcomments]
  have hcontents : (tokenize file source).toOption.map (·.map Token.content) =
      (tokenize file' source).toOption.map (·.map Token.content) := Scanner.contents_tokens rfl
  have hcode := code_alike o hcontents
  rw [h, ← hoptions] at hcode
  generalize (Compile.code o' file' source).result = result at hcode
  cases hcode with
  | ok heq => rw [heq]

end

structure Job where
  config : Config
  file : Bytes
  source : Bytes

namespace Job

def material (j : Job) : Bytes :=
  CacheKey.material Compiler.version j.config.fingerprint j.source

def key (j : Job) : CacheKey := .of Compiler.version j.config.fingerprint j.source

def code (j : Job) : Except Diagnostic Bytes :=
  (Compile.code j.config.options j.file j.source).result

end Job

def CollisionFree (inputs : List Bytes) : Prop :=
  ∀ a ∈ inputs, ∀ b ∈ inputs, Blake3.hash a = Blake3.hash b → a = b

/-- There is an entry for a job in a cache directory, good or too old. -/
def Machine.Stores (s : Machine) (directory : Bytes) (j : Job) (code : Bytes) : Prop :=
  s.files.Holds (Path.place s.here (Cache.path ⟨directory, 0⟩ j.key)) code

/-- The machines that compilations through one cache directory lead to, with the jobs that were
done. The directory has no entries at first. Between compilations anything may happen to the
clock, the working directory and the files, but no entry appears or gets another content. -/
inductive History (directory : Bytes) : List Job → Machine → Prop
  | start {s : Machine} (hnone : ∀ j code, ¬s.Stores directory j code) : History directory [] s
  | meanwhile {jobs : List Job} {s s' : Machine} (h : History directory jobs s)
      (hkept : ∀ j code, s'.Stores directory j code → s.Stores directory j code) :
      History directory jobs s'
  | compile {jobs : List Job} {s : Machine} (h : History directory jobs s) (c : Compiler)
      (maxAge : Duration) (file source : Bytes) (hemit : c.config.options.emit = .code)
      (hcache : c.cache = some ⟨directory, maxAge⟩) :
      History directory (⟨c.config, file, source⟩ :: jobs)
        ((c.compile file source : StateM Machine (Traced Bytes)) s).2

section

variable {code : Bytes} {cache cache' : Cache} {i j : Job}

variable {directory : Bytes} {jobs : List Job} {s : Machine}

/-- A compilation gives what is stored, or compiles and stores what it gives. -/
theorem codeThrough_cases (cache : Cache) (j : Job) (s : Machine) :
    ∃ out s', (Compiler.codeThrough cache j.config j.file j.source :
        StateM Machine (Traced Bytes)) s = (out, s') ∧
      ((∃ code, out.result = .ok code ∧ s.Stores cache.directory j code ∧ s' = s) ∨
        out.result = j.code ∧ (s' = s ∨ ∃ code, j.code = .ok code ∧
          s' = ((cache.put j.key code : StateM Machine (Except FileError Unit)) s).2)) := by
  obtain ⟨found, hget, hfound⟩ := Cache.get?_cases cache j.key s
  unfold Job.key at hget
  unfold Compiler.codeThrough
  rw [Machine.run_bind, hget]
  dsimp only
  split
  · rename_i code
    exact ⟨_, _, rfl, .inl ⟨code, rfl, hfound code rfl, rfl⟩⟩
  · cases hcompiled : (Compile.code j.config.options j.file j.source).result with
    | error d => exact ⟨_, _, rfl, .inr ⟨hcompiled.symm, .inl rfl⟩⟩
    | ok code => exact ⟨_, _, rfl, .inr ⟨hcompiled.symm, .inr ⟨code, hcompiled, rfl⟩⟩⟩

theorem History.later (h : History directory jobs s) (clock : Int) :
    History directory jobs { s with clock } := h.meanwhile fun _ _ hstores => hstores

theorem compile_eq_codeThrough {c : Compiler}
    (hemit : c.config.options.emit = .code) (hcache : c.cache = some cache) (file source : Bytes) :
    (c.compile file source : StateM Machine (Traced Bytes)) =
      Compiler.codeThrough cache c.config file source := by
  unfold Compiler.compile
  rw [hemit, hcache]

theorem Job.getLast?_place (j : Job) (cache : Cache) (here : List Bytes) :
    (Path.place here (cache.path j.key)).getLast? = some (j.key.text ++ Cache.suffix) :=
  Cache.getLast?_place_path cache here Compiler.version j.config.fingerprint j.source

theorem Job.key_of_place
    (h : Path.place here (cache.path j.key) = Path.place here (cache'.path i.key)) :
    i.key.text = j.key.text := by
  have hnames := congrArg List.getLast? h
  rw [getLast?_place, getLast?_place] at hnames
  exact (append_cancel_right (Option.some.inj hnames)).symm

theorem Job.not_temporary (j : Job) (cache : Cache) (here : List Bytes) :
    ¬Machine.Temporary (Path.place here (cache.path j.key)) := by
  rintro ⟨front, hlast⟩
  rw [getLast?_place] at hlast
  have hends := congrArg List.getLast? (Option.some.inj hlast)
  rw [getLast?_append, getLast?_append] at hends
  change some (Bytes.ascii 'e') = some (Bytes.ascii 'p') at hends
  exact absurd hends (by decide)

/-- What is stored is the code of a job with the same key. -/
theorem History.code_of_stores (h : History directory jobs s)
    (hstores : s.Stores directory j code) :
    ∃ i ∈ jobs, i.key.text = j.key.text ∧ i.code = .ok code := by
  induction h generalizing code with
  | start hnone => exact absurd hstores (hnone j code)
  | meanwhile _ hkept ih => exact ih (hkept j code hstores)
  | @compile jobs s _ c maxAge file source hemit hcache ih =>
    have hlater : s.Stores directory j code →
        ∃ i ∈ ⟨c.config, file, source⟩ :: jobs, i.key.text = j.key.text ∧ i.code = .ok code := by
      intro hstores
      obtain ⟨i, hi, hkey⟩ := ih hstores
      exact ⟨i, mem_cons_of_mem _ hi, hkey⟩
    rw [compile_eq_codeThrough hemit hcache] at hstores
    obtain ⟨out, s', hrun, hout⟩ :=
      codeThrough_cases ⟨directory, maxAge⟩ ⟨c.config, file, source⟩ s
    rw [hrun] at hstores
    rcases hout with ⟨_, -, -, rfl⟩ | ⟨-, rfl | ⟨output, hcode, rfl⟩⟩
    · exact hlater hstores
    · exact hlater hstores
    -- Of all places of entries, only the one of the job's own key can have got a file.
    · have hput := Machine.grows_put ⟨directory, maxAge⟩ (Job.key ⟨c.config, file, source⟩) output s
      unfold Machine.Stores at hstores
      rw [hput.here] at hstores
      rcases hput.held _ _ hstores with hstores | htemp | ⟨hplace, rfl⟩
      · exact hlater hstores
      · exact absurd htemp (j.not_temporary _ s.here)
      · exact ⟨_, mem_cons_self, Job.key_of_place hplace, hcode⟩

theorem code_of_key (hsources : CollisionFree (jobs.map Job.source))
    (hmaterials : CollisionFree (jobs.map Job.material)) (hi : i ∈ jobs) (hj : j ∈ jobs)
    (hkey : i.key.text = j.key.text) (hcode : i.code = .ok code) :
    j.code = .ok code := by
  have hmaterial : i.material = j.material :=
    hmaterials _ (mem_map_of_mem hi) _ (mem_map_of_mem hj) (Bytes.hex_injective hkey)
  obtain ⟨hfingerprint, hhash⟩ := CacheKey.material_injective hmaterial
  have hsource : i.source = j.source :=
    hsources _ (mem_map_of_mem hi) _ (mem_map_of_mem hj) hhash
  obtain ⟨hstrict, hcomments⟩ := Config.fingerprint_injective hfingerprint
  unfold Job.code at hcode ⊢
  rw [← hsource]
  exact code_of_file hstrict.symm hcomments.symm _ _ _ hcode

end

/-- Compilations through one cache directory give what they give without a cache, the same code or
the same error: whatever was compiled before, in which files, with which settings and when. -/
theorem compile_cache_transparent {directory : Bytes} {jobs : List Job} {s : Machine}
    (h : History directory jobs s) (c : Compiler) (maxAge : Duration) (file source : Bytes)
    (hemit : c.config.options.emit = .code) (hcache : c.cache = some ⟨directory, maxAge⟩)
    (hsources : CollisionFree ((⟨c.config, file, source⟩ :: jobs).map Job.source))
    (hmaterials : CollisionFree ((⟨c.config, file, source⟩ :: jobs).map Job.material)) :
    ((c.compile file source : StateM Machine (Traced Bytes)) s).1.result =
      (({ c with cache := none }.compile file source : StateM Machine (Traced Bytes)) s).1.result := by
  have hplain : (({ c with cache := none }.compile file source :
      StateM Machine (Traced Bytes)) s).1.result = Job.code ⟨c.config, file, source⟩ := by
    unfold Compiler.compile Ifj24.compile
    simp only [hemit]
    rfl
  rw [hplain, compile_eq_codeThrough hemit hcache]
  obtain ⟨out, s', hrun, hout⟩ := codeThrough_cases ⟨directory, maxAge⟩ ⟨c.config, file, source⟩ s
  rw [hrun]
  rcases hout with ⟨code, hres, hstores, -⟩ | ⟨hres, -⟩
  · obtain ⟨i, hi, hkey, hcode⟩ := h.code_of_stores hstores
    exact hres.trans
      (code_of_key hsources hmaterials (mem_cons_of_mem _ hi) mem_cons_self hkey hcode).symm
  · exact hres

def bareMachine : Machine := ⟨.empty, [], 0, [], [], none, [], []⟩

def cachingCompiler : Compiler := ⟨.default "/cache", some ⟨"/cache", 60⟩, false, []⟩

/-- The machine on which a program was compiled some time ago. -/
def usedMachine : Machine :=
  { ((cachingCompiler.compile "first" denseSource : StateM Machine (Traced Bytes)) bareMachine).2 with
    clock := 30 }

theorem history_usedMachine :
    History "/cache" [⟨cachingCompiler.config, "first", denseSource⟩] usedMachine := by
  have hbare : History "/cache" [] bareMachine := .start fun j code hstores => by
    have hplace := hstores.ne_nil
    obtain ⟨time, hget⟩ := hstores
    rw [FileTree.get?_of_ne_nil hplace] at hget
    cases hget
  exact (hbare.compile cachingCompiler 60 "first" denseSource rfl rfl).later 30

theorem collisionFree_replicate (n : Nat) (input : Bytes) :
    CollisionFree (List.replicate n input) := fun _ ha _ hb _ =>
  (eq_of_mem_replicate ha).trans (eq_of_mem_replicate hb).symm

/-- The same program from another file is found in the cache. -/
theorem compile_usedMachine :
    ((cachingCompiler.compile "second" denseSource : StateM Machine (Traced Bytes))
        usedMachine).1.messages =
        ["cache hit " ++ (Job.key ⟨cachingCompiler.config, "second", denseSource⟩).text.take 12] ∧
      ((cachingCompiler.compile "second" denseSource : StateM Machine (Traced Bytes))
        usedMachine).1.result =
        (({ cachingCompiler with cache := none }.compile "second" denseSource :
          StateM Machine (Traced Bytes)) usedMachine).1.result := by
  refine ⟨by decide +kernel, ?_⟩
  exact compile_cache_transparent history_usedMachine cachingCompiler 60 "second" denseSource rfl rfl
    (collisionFree_replicate 2 _) (collisionFree_replicate 2 _)

end Ifj24
