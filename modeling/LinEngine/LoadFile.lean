import LinEngine.Reading

/-!
# Loading files

`load_file` with the session state that it saves and restores: the current namespace, the open
ones, the directories of the files being loaded, the paths that are marked as loaded and the
reader's position. What the other forms do is a parameter; they change definitions, output and
the reader's tables only. The file system does not change.
-/
namespace LinEngine.Files

open Reader

/-- The longest path with its end. -/
def pathMax : ℕ := 4096

/-- A text cut to a buffer of `n` bytes. -/
def snprintf (n : ℕ) (s : Bytes) : Bytes := s.take (n - 1)

/-- The session; `rest` is what loading itself neither reads nor writes. One field that no function reads
records each file whose forms are delivered. -/
structure Session (ρ : Type) where
  currNs : Bytes
  openNs : List Bytes
  loaded : List Bytes
  dirStack : List Bytes
  reader : Bytes
  tab : Tables
  rest : ρ
  parsed : List Bytes

/-- The files that can be read with their texts up to the first NUL, the paths that can be accessed and what they
stand for, and the rest of the program. -/
structure Host (ρ : Type) where
  files : List (Bytes × Bytes)
  access : Bytes → Bool
  realpath : Bytes → Option Bytes
  realpath_lt : ∀ p c, realpath p = some c → c.length < pathMax
  stdDir : Bytes
  building : Bool
  runLineFile : Bytes → ρ → Option ρ
  perform : RTerm → Session ρ → Tables × ρ
  report : String → ρ → ρ
  readOk : ρ → ρ
  cannotLoad : Bytes → ρ → ρ

variable {ρ : Type}

def readFile (host : Host ρ) (path : Bytes) : Option Bytes := host.files.lookup path

def isAlreadyLoaded (s : Session ρ) (canon : Bytes) : Bool := s.loaded.contains canon

def markLoaded (s : Session ρ) (canon : Bytes) : Session ρ :=
  { s with loaded := s.loaded ++ [snprintf pathMax canon] }

/-- Where a path is looked for: a module of the standard library there first, then beside the file being loaded. -/
def places (host : Host ρ) (s : Session ρ) (rel : Bytes) : List Bytes :=
  let std := rel.take 4 == lit "std/"
  let inStd := snprintf pathMax (host.stdDir ++ lit "/" ++ if std then rel.drop 4 else rel)
  let relative := rel.head? != some (ch '/')
  (if relative && std then [inStd] else []) ++
    (if relative then (s.dirStack.head?.map fun dir => snprintf pathMax (dir ++ lit "/" ++ rel)).toList else []) ++
    [rel, inStd]

def resolvePath (host : Host ρ) (s : Session ρ) (rel : Bytes) : Option Bytes :=
  (places host s rel).findSome? fun cand => if host.access cand then host.realpath cand else none

/-- The directory of a file. -/
def dirName (full : Bytes) : Bytes :=
  if full.contains (ch '/') then (full.reverse.dropWhile (· != ch '/')).tail.reverse else lit "."

def setNamespace (name : Bytes) (s : Session ρ) : Session ρ :=
  { s with currNs := if name = [] ∨ name = lit "_" ∨ name = lit "root" then [] else name }

def openNamespace (name : Bytes) (s : Session ρ) : Session ρ :=
  if name = [] ∨ name ∈ s.openNs then s else { s with openNs := s.openNs ++ [name] }

/-- `load_file` as its callers see it: whether it succeeds, or no answer yet. -/
abbrev Loader (ρ : Type) := Bytes → Session ρ → Option (Bool × Session ρ)

def formCb (host : Host ρ) (load : Loader ρ) (x : Delivery) (s : Session ρ) : Option (Session ρ) :=
  match x with
  | .error msg => some { s with rest := host.report msg s.rest }
  | .ok t =>
    let s := { s with rest := host.readOk s.rest }
    match t with
    | .load path => do
      let r ← load path s
      if r.1 then some r.2 else some { r.2 with rest := host.cannotLoad path r.2.rest }
    | .ns name => some (setNamespace name s)
    | .openNs name => some (openNamespace name s)
    | t =>
      let r := host.perform t s
      some { s with tab := r.1, rest := r.2 }

/-- The loop of `parse_forms` over the position that all of the program shares. -/
def formsLoop (host : Host ρ) (load : Loader ρ) (d : ℕ) : ℕ → Session ρ → Option (Session ρ)
  | 0, _ => none
  | k + 1, s =>
    let s := { s with reader := skipws s.reader }
    if s.reader = [] then some s
    else do
      let r ← readForm d ⟨s.reader, s.tab⟩
      let s ← formCb host load r.1 { s with reader := r.2.rest, tab := r.2.tab }
      formsLoop host load d k s

def parseForms (host : Host ρ) (load : Loader ρ) (d : ℕ) (src : Bytes) (s : Session ρ) : Option (Session ρ) := do
  let s' ← formsLoop host load d d { s with reader := src }
  return { s' with reader := s.reader }

/-- The part of `load_file` behind the marks. -/
def loadText (host : Host ρ) (load : Loader ρ) (d : ℕ) (full src : Bytes) (s : Session ρ) : Option (Session ρ) := do
  let s' ← parseForms host load d src { s with dirStack := dirName full :: s.dirStack, parsed := full :: s.parsed }
  return { s' with currNs := s.currNs, openNs := s'.openNs.take s.openNs.length, dirStack := s'.dirStack.tail }

/-- `load_file` with `d` units of fuel, for itself and for the reader. -/
def loadFile (host : Host ρ) : ℕ → Loader ρ
  | 0, _, _ => none
  | d + 1, path, s =>
    match if host.building then none else host.runLineFile path s.rest with
    | some rest => some (true, { s with rest := rest })
    | none =>
      match resolvePath host s path with
      | none => some (false, s)
      | some full =>
        if isAlreadyLoaded s full then some (true, s)
        else
          let s := markLoaded s full
          match readFile host full with
          | none => some (false, s)
          | some src => do
            let s ← loadText host (loadFile host d) d full src s
            return (true, s)

/-! ## What loading keeps -/

/-- The files whose forms have been delivered are marked, and none has been twice. -/
structure Once (s : Session ρ) : Prop where
  nodup : s.parsed.Nodup
  marked : ∀ p ∈ s.parsed, p ∈ s.loaded

/-- What a form keeps: the open namespaces may grow. -/
structure Within (s s' : Session ρ) : Prop where
  openNs : s.openNs <+: s'.openNs
  dirStack : s'.dirStack = s.dirStack
  loaded : s.loaded <+: s'.loaded
  once : Once s'

/-- What a load keeps. -/
structure Restored (s s' : Session ρ) : Prop where
  currNs : s'.currNs = s.currNs
  openNs : s'.openNs = s.openNs
  dirStack : s'.dirStack = s.dirStack
  reader : s'.reader = s.reader
  loaded : s.loaded <+: s'.loaded
  once : Once s'

variable {host : Host ρ} {s s' s'' : Session ρ} {path full src : Bytes} {n N L : ℕ}

lemma Restored.within (h : Restored s s') : Within s s' := ⟨h.openNs ▸ List.prefix_rfl, h.dirStack, h.loaded, h.once⟩

lemma Within.trans (h : Within s s') (h' : Within s' s'') : Within s s'' :=
  ⟨h.openNs.trans h'.openNs, h'.dirStack.trans h.dirStack, h.loaded.trans h'.loaded, h'.once⟩

/-- The readable files that are not marked. -/
def unread (host : Host ρ) (s : Session ρ) : ℕ := ((host.files.map Prod.fst).toFinset.filter (· ∉ s.loaded)).card

lemma unread_le (h : s.loaded <+: s'.loaded) : unread host s' ≤ unread host s := by
  refine Finset.card_le_card fun p hp => ?_
  rw [Finset.mem_filter] at hp ⊢
  exact ⟨hp.1, fun hmem => hp.2 (h.subset hmem)⟩

/-- The path leads to a file that is not marked and cannot be read. -/
def Unreadable (host : Host ρ) (path : Bytes) (s : Session ρ) : Prop :=
  (if host.building then none else host.runLineFile path s.rest) = none ∧
    ∃ full, resolvePath host s path = some full ∧ full ∉ s.loaded ∧ readFile host full = none

/-- How a call of `load_file` ends. -/
structure Ending (host : Host ρ) (path : Bytes) (s : Session ρ) (r : Bool × Session ρ) : Prop where
  restored : Restored s r.2
  unchanged : (r.1 = false → r.2.loaded = s.loaded) ↔ ¬ Unreadable host path s

/-- With `N` units of fuel every load of a session with at most `n` unmarked files ends. -/
def LoadsEnd (host : Host ρ) (n N : ℕ) : Prop :=
  ∀ path s, Once s → unread host s ≤ n → ∃ r, (∀ d, N ≤ d → loadFile host d path s = some r) ∧ Ending host path s r

section Forms

variable (hload : LoadsEnd host n N)

include hload

lemma formCb_within (x : Delivery) (hs : Once s) (hn : unread host s ≤ n) :
    ∃ s', (∀ d, N ≤ d → formCb host (loadFile host d) x s = some s') ∧ Within s s' ∧ s'.reader = s.reader := by
  have hsame : ∀ s', s'.openNs = s.openNs → s'.dirStack = s.dirStack → s'.loaded = s.loaded → s'.parsed = s.parsed →
      Within s s' := fun s' ho hd hl hp =>
    ⟨ho ▸ List.prefix_rfl, hd, hl ▸ List.prefix_rfl, ⟨hp ▸ hs.nodup, by rw [hp, hl]; exact hs.marked⟩⟩
  cases x with
  | error msg => exact ⟨_, fun d _ => rfl, hsame _ rfl rfl rfl rfl, rfl⟩
  | ok t =>
    cases t with
    | load path =>
      obtain ⟨r, hr, hend⟩ := hload path { s with rest := host.readOk s.rest } ⟨hs.nodup, hs.marked⟩ hn
      have hback := hend.restored
      refine ⟨if r.1 then r.2 else { r.2 with rest := host.cannotLoad path r.2.rest }, fun d hd => ?_, ?_, ?_⟩
      · simp only [formCb, hr d hd, Option.bind_eq_bind, Option.bind_some]
        split_ifs <;> rfl
      · split_ifs
        · exact ⟨hback.within.openNs, hback.dirStack, hback.loaded, hback.once⟩
        · exact ⟨hback.within.openNs, hback.dirStack, hback.loaded, hback.once.nodup, hback.once.marked⟩
      · split_ifs <;> exact hback.reader
    | openNs name =>
      refine ⟨_, fun d _ => rfl, ?_, ?_⟩
      · unfold openNamespace
        split_ifs
        · exact hsame _ rfl rfl rfl rfl
        · exact ⟨List.prefix_append _ _, rfl, List.prefix_rfl, hs.nodup, hs.marked⟩
      · unfold openNamespace
        split_ifs <;> rfl
    | _ => exact ⟨_, fun d _ => rfl, hsame _ rfl rfl rfl rfl, rfl⟩

lemma formsLoop_within (hs : Once s) (hn : unread host s ≤ n) (hL : s.reader.length ≤ L) :
    ∃ s', (∀ d k, N ≤ d → 2 * L + 1 ≤ d → L + 1 ≤ k → formsLoop host (loadFile host d) d k s = some s') ∧ Within s s' := by
  induction L generalizing s with
  | zero =>
    have hnil : s.reader = [] := List.length_eq_zero_iff.mp (by omega)
    refine ⟨{ s with reader := [] }, fun d k _ _ hk => ?_, List.prefix_rfl, rfl, List.prefix_rfl, hs.nodup, hs.marked⟩
    obtain ⟨k, rfl⟩ : ∃ k', k = k' + 1 := ⟨k - 1, by omega⟩
    simp [formsLoop, hnil, skipws, skipFrom]
  | succ L ih =>
    rcases hskip : skipws s.reader with _ | ⟨c, cs⟩
    · refine ⟨{ s with reader := [] }, fun d k _ _ hk => ?_, List.prefix_rfl, rfl, List.prefix_rfl, hs.nodup, hs.marked⟩
      obtain ⟨k, rfl⟩ : ∃ k', k = k' + 1 := ⟨k - 1, by omega⟩
      simp [formsLoop, hskip]
    · have hlen := (skipws_suffix s.reader).length_le
      have hfuel : 2 * (skipws s.reader).length + 1 ≤ 2 * (L + 1) + 1 := by omega
      obtain ⟨⟨x, st⟩, hread⟩ := readForm_isSome (s := ⟨skipws s.reader, s.tab⟩) hfuel
      obtain ⟨-, hlt⟩ := readForm_advances (s := ⟨s.reader, s.tab⟩) hskip hread
      obtain ⟨s₁, hcb, hin, hreader⟩ :=
        formCb_within hload x (s := { s with reader := st.rest, tab := st.tab }) ⟨hs.nodup, hs.marked⟩ hn
      have hshort : s₁.reader.length ≤ L := by
        rw [hreader]
        exact Nat.le_of_lt_succ (hlt.trans_le hL)
      obtain ⟨s', hs', hrest⟩ := ih hin.once ((unread_le hin.loaded).trans hn) hshort
      refine ⟨s', fun d k hd hd' hk => ?_, ⟨hin.openNs.trans hrest.openNs, hrest.dirStack.trans hin.dirStack,
        hin.loaded.trans hrest.loaded, hrest.once⟩⟩
      obtain ⟨k, rfl⟩ : ∃ k', k = k' + 1 := ⟨k - 1, by omega⟩
      have hne : skipws s.reader ≠ [] := hskip ▸ List.cons_ne_nil c cs
      simp [formsLoop, hne, readForm_stable hd' hread, hcb d hd, hs' d k hd (by omega) (by omega)]

lemma parseForms_within (src : Bytes) (hs : Once s) (hn : unread host s ≤ n) :
    ∃ s', (∀ d, N ≤ d → 2 * src.length + 1 ≤ d → parseForms host (loadFile host d) d src s = some s') ∧ Within s s' ∧
      s'.reader = s.reader := by
  have honce : Once { s with reader := src } := ⟨hs.nodup, hs.marked⟩
  obtain ⟨s', hs', hin⟩ := formsLoop_within hload (L := src.length) honce hn le_rfl
  refine ⟨{ s' with reader := s.reader }, fun d hd hd' => ?_, ⟨hin.openNs, hin.dirStack, hin.loaded, hin.once.nodup,
    hin.once.marked⟩, rfl⟩
  unfold parseForms
  rw [hs' d d hd hd' (by omega)]
  rfl

lemma loadText_restored (src : Bytes) (hs : Once s) (hn : unread host s ≤ n) (hmark : full ∈ s.loaded)
    (hnew : full ∉ s.parsed) :
    ∃ s', (∀ d, N ≤ d → 2 * src.length + 1 ≤ d → loadText host (loadFile host d) d full src s = some s') ∧
      Restored s s' := by
  have honce : Once { s with dirStack := dirName full :: s.dirStack, parsed := full :: s.parsed } :=
    ⟨List.nodup_cons.mpr ⟨hnew, hs.nodup⟩, List.forall_mem_cons.mpr ⟨hmark, hs.marked⟩⟩
  obtain ⟨s', hs', hin, hreader⟩ := parseForms_within hload src honce hn
  refine ⟨{ s' with currNs := s.currNs, openNs := s'.openNs.take s.openNs.length, dirStack := s'.dirStack.tail },
    fun d hd hd' => ?_, rfl, ?_, ?_, hreader, hin.loaded, hin.once.nodup, hin.once.marked⟩
  · unfold loadText
    rw [hs' d hd hd']
    rfl
  · exact (List.prefix_iff_eq_take.mp hin.openNs).symm
  · exact congrArg List.tail hin.dirStack

end Forms

/-! ## A call of `load_file` -/

/-- A resolved path is not cut when it is marked. -/
lemma snprintf_resolved (h : resolvePath host s path = some full) : snprintf pathMax full = full := by
  obtain ⟨cand, -, hcand⟩ := List.exists_of_findSome?_eq_some h
  split_ifs at hcand
  exact List.take_of_length_le (Nat.le_sub_one_of_lt (host.realpath_lt _ _ hcand))

/-- The length of the longest file. -/
def longest (host : Host ρ) : ℕ := (host.files.map fun f => f.2.length).foldr max 0

lemma readFile_spec (h : readFile host full = some src) :
    full ∈ (host.files.map Prod.fst).toFinset ∧ src.length ≤ longest host := by
  unfold readFile at h
  unfold longest
  generalize host.files = fs at h
  induction fs with
  | nil => cases h
  | cons f fs ih =>
    obtain ⟨p, text⟩ := f
    rw [List.lookup_cons] at h
    simp only [List.map_cons, List.toFinset_cons, List.foldr_cons, Finset.mem_insert]
    split at h
    · rename_i heq
      obtain rfl := Option.some.inj h
      exact ⟨.inl (beq_iff_eq.mp heq), le_max_left _ _⟩
    · exact ⟨.inr (ih h).1, (ih h).2.trans (le_max_right _ _)⟩

/-- Marking a readable file leaves fewer. -/
lemma unread_markLoaded (hnew : full ∉ s.loaded) (hfull : snprintf pathMax full = full)
    (hmem : full ∈ (host.files.map Prod.fst).toFinset) : unread host (markLoaded s full) < unread host s := by
  refine Finset.card_lt_card ((Finset.ssubset_iff_of_subset fun p hp => ?_).mpr ⟨full, ?_, fun hp => ?_⟩)
  · rw [Finset.mem_filter] at hp ⊢
    exact ⟨hp.1, fun h => hp.2 (List.mem_append_left _ h)⟩
  · exact Finset.mem_filter.mpr ⟨hmem, hnew⟩
  · refine (Finset.mem_filter.mp hp).2 (List.mem_append_right _ ?_)
    rw [hfull]
    exact List.mem_singleton_self full

/-- A file that is marked, or not found, or not read. -/
lemma Restored.of_loaded (hs : Once s) (h : s.loaded <+: s'.loaded)
    (hrest : s' = { s with loaded := s'.loaded, rest := s'.rest }) :
    Restored s s' := by
  have honce : Once s' := by
    rw [hrest]
    exact ⟨hs.nodup, fun p hp => h.subset (hs.marked p hp)⟩
  refine ⟨?_, ?_, ?_, ?_, h, honce⟩ <;> rw [hrest]

/-- Each load of a file marks it before its forms are read, so loads are nested no deeper than there are files. -/
theorem loads_end (host : Host ρ) (n : ℕ) : LoadsEnd host n (2 * longest host + 2 + n) := by
  induction n using Nat.strong_induction_on with
  | h n ih =>
  intro path s hs hn
  have hfuel : ∀ d, 2 * longest host + 2 + n ≤ d → ∃ d', d = d' + 1 ∧ 2 * longest host + 1 + n ≤ d' := fun d hd =>
    ⟨d - 1, by omega, by omega⟩
  cases hline : if host.building then none else host.runLineFile path s.rest with
  | some rest =>
    refine ⟨(true, { s with rest := rest }), fun d hd => ?_, ?_⟩
    · obtain ⟨d, rfl, -⟩ := hfuel d hd
      rw [loadFile, hline]
    · refine ⟨.of_loaded hs List.prefix_rfl rfl, fun _ h => ?_, fun _ h => (nomatch h)⟩
      rw [h.1] at hline
      cases hline
  | none =>
    cases hfull : resolvePath host s path with
    | none =>
      refine ⟨(false, s), fun d hd => ?_, .of_loaded hs List.prefix_rfl rfl, fun _ h => ?_, fun _ _ => rfl⟩
      · obtain ⟨d, rfl, -⟩ := hfuel d hd
        rw [loadFile, hline]
        dsimp only
        rw [hfull]
      · obtain ⟨-, full, h, -⟩ := h
        rw [hfull] at h
        cases h
    | some full =>
      by_cases hmark : full ∈ s.loaded
      · refine ⟨(true, s), fun d hd => ?_, .of_loaded hs List.prefix_rfl rfl, fun _ h => ?_, fun _ h => (nomatch h)⟩
        · obtain ⟨d, rfl, -⟩ := hfuel d hd
          rw [loadFile, hline]
          dsimp only
          rw [hfull]
          simp [isAlreadyLoaded, hmark]
        · obtain ⟨-, full', h, hnew, -⟩ := h
          rw [hfull] at h
          exact hnew (Option.some.inj h ▸ hmark)
      · have hcut := snprintf_resolved hfull
        have hloaded : (markLoaded s full).loaded = s.loaded ++ [full] := by rw [markLoaded, hcut]
        have hprefix : s.loaded <+: (markLoaded s full).loaded := hloaded ▸ List.prefix_append _ _
        have hmarked : Restored s (markLoaded s full) := .of_loaded hs hprefix rfl
        have hunfold : ∀ d, loadFile host (d + 1) path s = match readFile host full with
            | none => some (false, markLoaded s full)
            | some src => (loadText host (loadFile host d) d full src (markLoaded s full)).map (true, ·) := by
          intro d
          rw [loadFile, hline]
          dsimp only
          rw [hfull]
          simp only [isAlreadyLoaded, List.contains_eq_mem, hmark, decide_false, Bool.false_eq_true, if_false]
          cases readFile host full <;> simp [Option.map_eq_bind]
        cases hread : readFile host full with
        | none =>
          refine ⟨(false, markLoaded s full), fun d hd => ?_, hmarked, fun h => ?_, fun h => ?_⟩
          · obtain ⟨d, rfl, -⟩ := hfuel d hd
            rw [hunfold, hread]
          · have heq := (h rfl).symm.trans hloaded
            simp at heq
          · exact absurd ⟨hline, full, hfull, hmark, hread⟩ h
        | some src =>
          obtain ⟨hmem, hlong⟩ := readFile_spec hread
          have hfewer := unread_markLoaded hmark hcut hmem
          obtain ⟨m, rfl⟩ : ∃ m, n = m + 1 := Nat.exists_eq_succ_of_ne_zero (by omega)
          have hin : full ∈ (markLoaded s full).loaded := hloaded ▸ List.mem_append_right _ (List.mem_singleton_self full)
          obtain ⟨s', hs', hback⟩ := loadText_restored (ih m (Nat.lt_succ_self m)) src hmarked.once (by omega)
            hin fun h => hmark (hs.marked full h)
          refine ⟨(true, s'), fun d hd => ?_, ⟨hback.currNs, hback.openNs, hback.dirStack, hback.reader,
            hprefix.trans hback.loaded, hback.once⟩, fun _ h => ?_, fun _ h => (nomatch h)⟩
          · obtain ⟨d, rfl, hd⟩ := hfuel d hd
            rw [hunfold, hread]
            dsimp only
            rw [hs' d (by omega) (by omega)]
            rfl
          · obtain ⟨-, full', h, -, hnone⟩ := h
            rw [hfull] at h
            obtain rfl := Option.some.inj h
            rw [hread] at hnone
            cases hnone

/-! ## Sessions -/

/-- Nothing is loaded and nothing is being read. -/
def Session.start (tab : Tables) (rest : ρ) : Session ρ := ⟨[], [], [], [], [], tab, rest, []⟩

/-- A call ends so with any fuel that is enough. -/
def Comes {α : Type} (run : ℕ → Option α) (a : α) : Prop := ∃ N, ∀ d, N ≤ d → run d = some a

lemma Comes.unique {α : Type} {run : ℕ → Option α} {a b : α} (ha : Comes run a) (hb : Comes run b) : a = b := by
  obtain ⟨N, hN⟩ := ha
  obtain ⟨M, hM⟩ := hb
  have heq := (hN (max N M) (le_max_left N M)).symm.trans (hM (max N M) (le_max_right N M))
  exact Option.some.inj heq

/-- The sessions of the program: files are loaded, and texts are read as at the prompt. -/
inductive Reached (host : Host ρ) : Session ρ → Prop
  | start (tab : Tables) (rest : ρ) : Reached host (.start tab rest)
  | load {s : Session ρ} {path : Bytes} {r : Bool × Session ρ} : Reached host s →
    Comes (fun d => loadFile host d path s) r → Reached host r.2
  | text {s s' : Session ρ} {src : Bytes} : Reached host s →
    Comes (fun d => parseForms host (loadFile host d) d src s) s' → Reached host s'

lemma loadFile_comes (path : Bytes) (hs : Once s) :
    ∃ r, Comes (fun d => loadFile host d path s) r ∧ Ending host path s r := by
  obtain ⟨r, hr, hend⟩ := loads_end host (unread host s) path s hs le_rfl
  exact ⟨r, ⟨_, hr⟩, hend⟩

lemma parseForms_comes (src : Bytes) (hs : Once s) :
    ∃ s', Comes (fun d => parseForms host (loadFile host d) d src s) s' ∧ Within s s' := by
  obtain ⟨s', hs', hin, -⟩ := parseForms_within (loads_end host (unread host s)) src hs le_rfl
  refine ⟨s', ⟨max (2 * longest host + 2 + unread host s) (2 * src.length + 1), fun d hd => ?_⟩, hin⟩
  exact hs' d ((le_max_left _ _).trans hd) ((le_max_right _ _).trans hd)

lemma Reached.once (h : Reached host s) : Once s := by
  induction h with
  | start tab rest => exact ⟨List.nodup_nil, fun p hp => absurd hp List.not_mem_nil⟩
  | load _ hr ih =>
    obtain ⟨r, hr', hend⟩ := loadFile_comes _ ih
    exact hr.unique hr' ▸ hend.restored.once
  | text _ hr ih =>
    obtain ⟨s', hr', hin⟩ := parseForms_comes _ ih
    exact hr.unique hr' ▸ hin.once

/-- The call ends, the forms of no file have been delivered twice, and the session is as it was at entry; a call that
returns 0 leaves the marks alone. -/
def KeepsSession (host : Host ρ) (path : Bytes) (s : Session ρ) : Prop :=
  ∃ r s', Comes (fun d => loadFile host d path s) (r, s') ∧ s'.parsed.Nodup ∧ s'.currNs = s.currNs ∧
    s'.openNs = s.openNs ∧ s'.dirStack = s.dirStack ∧ s'.reader = s.reader ∧ (r = false → s'.loaded = s.loaded)

/-- A directory `d` and a file `f` in it that loads itself and the directory. -/
def dirHost : Host Unit where
  files := [(lit "/d/f", lit "(load \"f\") (namespace n) (load \"/d\")")]
  access := fun p => p == lit "/d" || p == lit "/d/f"
  realpath := fun p => if p.length < pathMax then some p else none
  realpath_lt := by
    intro p c h
    split_ifs at h with hp
    exact Option.some.inj h ▸ hp
  stdDir := lit "std"
  building := false
  runLineFile := fun _ _ => none
  perform := fun _ s => (s.tab, s.rest)
  report := fun _ u => u
  readOk := fun u => u
  cannotLoad := fun _ u => u

/-- The session after a directory has been asked for. -/
def dirMarked : Session Unit := { Session.start .start () with loaded := [lit "/d"] }

end LinEngine.Files
