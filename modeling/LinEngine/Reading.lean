import LinEngine.Reader

/-!
# The reader ends

A program of the reader uses up a part of the text or stops with a message. How much it uses
bounds the fuel that it needs, and every form of a text uses some of it.
-/
namespace LinEngine.Reader

/-! ## What is left of a text -/

lemma skipFrom_suffix (b : Bool) (s : Bytes) : skipFrom b s <:+ s := by
  induction s generalizing b with
  | nil => cases b <;> exact List.suffix_rfl
  | cons c cs ih =>
    have hcons : ∀ b, skipFrom b cs <:+ c :: cs := fun b => (ih b).trans (List.suffix_cons c cs)
    cases b with
    | true => exact hcons _
    | false =>
      unfold skipFrom
      split_ifs
      · exact hcons _
      · exact hcons _
      · exact List.suffix_rfl

lemma skipws_suffix (s : Bytes) : skipws s <:+ s := skipFrom_suffix false s

/-- Neither a blank nor a comment is left. -/
lemma skipFrom_head {b : Bool} {s : Bytes} {c : UInt8} {cs : Bytes} (h : skipFrom b s = c :: cs) :
    isspace c = false ∧ c ≠ ch ';' := by
  induction s generalizing b with
  | nil => cases b <;> cases h
  | cons x xs ih =>
    cases b with
    | true => exact ih h
    | false =>
      unfold skipFrom at h
      split_ifs at h with hspace hcomment
      · exact ih h
      · exact ih h
      · obtain ⟨rfl, rfl⟩ := List.cons.inj h
        exact ⟨by simpa using hspace, hcomment⟩

/-- A name is a part of the text. -/
lemma sym_append {s n r : Bytes} (h : sym s = some (n, r)) : n ≠ [] ∧ n ++ r = s := by
  unfold sym at h
  split at h
  · cases h
    simp
  · cases h
    simp
  · split_ifs at h with hempty
    cases h
    exact ⟨hempty, List.takeWhile_append_dropWhile⟩

lemma escape_suffix (c : UInt8) (cs : Bytes) : (escape c cs).2 <:+ cs := by
  have htwo : ∀ (a b : UInt8) (r : Bytes), r <:+ a :: b :: r := fun a b r => ⟨[a, b], rfl⟩
  unfold escape
  split_ifs
  · exact List.suffix_rfl
  · exact List.suffix_rfl
  · exact List.suffix_rfl
  · exact List.suffix_rfl
  · split
    · split_ifs
      · exact htwo _ _ _
      · exact List.suffix_rfl
    · exact List.suffix_rfl
  · split
    · split_ifs
      · exact htwo _ _ _
      · exact List.suffix_rfl
    · exact List.suffix_rfl
  · exact List.suffix_rfl

lemma nextByte_suffix (c : UInt8) (cs : Bytes) : (nextByte c cs).2 <:+ cs := by
  unfold nextByte
  split
  · split_ifs
    · exact (escape_suffix _ _).trans (List.suffix_cons _ _)
    · exact List.suffix_rfl
  · exact List.suffix_rfl

lemma decodeLoop_suffix (d : ℕ) (dec s : Bytes) : (decodeLoop d dec s).2 <:+ s := by
  induction d generalizing dec s with
  | zero => exact List.suffix_rfl
  | succ d ih =>
    cases s with
    | nil => exact List.suffix_rfl
    | cons c cs =>
      unfold decodeLoop
      split_ifs
      · exact List.suffix_rfl
      · exact (ih _ _).trans ((nextByte_suffix c cs).trans (List.suffix_cons c cs))
      · exact (ih _ _).trans ((nextByte_suffix c cs).trans (List.suffix_cons c cs))

lemma pathBody_append (s : Bytes) : (pathBody s).1 ++ (pathBody s).2 = s := by
  induction s using pathBody.induct with
  | case1 => rfl
  | case2 cs =>
    unfold pathBody
    simp
  | case3 e cs hquote ih =>
    unfold pathBody
    simp [hquote, ih]
  | case4 c hquote e cs hback ih =>
    unfold pathBody
    simp [hquote, hback, ih]
  | case5 c hquote =>
    unfold pathBody
    simp [hquote]

/-! ## Programs that use the text up -/

/-- From at most `L` bytes the program returns behind at least `k` more of them, or stops with a message. -/
def Eats {α : Type} (k L : ℕ) (m : RM α) : Prop := ∀ s : State, s.rest.length ≤ L →
  wp m (fun _ s' => s'.rest <:+ s.rest ∧ s'.rest.length + k ≤ s.rest.length)
    (fun e s' => e ≠ .fuel ∧ s'.rest <:+ s.rest) s

namespace Eats

variable {α β : Type} {k j n L : ℕ} {m m' : RM α} {f : α → RM β}

/-- What follows starts behind the bytes that are used. -/
lemma bind (h : Eats k L m) (hf : ∀ a L', L = L' + k → Eats j L' (f a)) (hn : n ≤ k + j) : Eats n L (m >>= f) := by
  intro s hs
  rw [wp_bind]
  refine wp_mono (h s hs) (fun a s' h' => ?_) fun e s' h' => h'
  obtain ⟨L', rfl⟩ : ∃ L', L = L' + k := ⟨L - k, by omega⟩
  refine wp_mono (hf a L' rfl s' (by omega)) (fun b s'' h'' => ?_) fun e s'' h'' => ?_
  · exact ⟨h''.1.trans h'.1, by omega⟩
  · exact ⟨h''.1, h''.2.trans h'.1⟩

/-- A first part that need not use anything. -/
lemma next (h : Eats 0 L m) (hf : ∀ a, Eats k L (f a)) : Eats k L (m >>= f) :=
  h.bind (fun a L' hL => hL ▸ hf a) (by omega)

/-- A first part that uses some of the text. -/
lemma used (h : Eats 1 L m) (hf : ∀ a L', L = L' + 1 → Eats 0 L' (f a)) : Eats 1 L (m >>= f) := h.bind hf le_rfl

lemma weaken (h : Eats k L m) (hn : n ≤ k) : Eats n L m :=
  fun s hs => wp_mono (h s hs) (fun _ _ h' => ⟨h'.1, by omega⟩) fun _ _ h' => h'

/-- A first part whose use of the text does not matter. -/
lemma after (h : Eats k L m) (hf : ∀ a, Eats 0 L (f a)) : Eats 0 L (m >>= f) := (h.weaken (Nat.zero_le k)).next hf

lemma pure (a : α) : Eats 0 L (Pure.pure a) := fun _ _ => ⟨List.suffix_rfl, le_rfl⟩

lemma pfail (msg : String) : Eats k L (Reader.pfail msg : RM α) := fun _ _ => ⟨Stop.noConfusion, List.suffix_rfl⟩

lemma ite {p : Prop} [Decidable p] (h : p → Eats k L m) (h' : ¬p → Eats k L m') : Eats k L (if p then m else m') := by
  split_ifs with hp
  · exact h hp
  · exact h' hp

end Eats

section

variable {α : Type} {k j L : ℕ} {m m' : RM α}

/-- A step of the reader that asks about the state. -/
lemma eats_get {f : State → α} : Eats 0 L (get >>= fun s => (pure (f s) : RM α)) :=
  fun _ _ => ⟨List.suffix_rfl, le_rfl⟩

lemma eats_sees (c : Char) : Eats 0 L (sees c) := eats_get

lemma eats_atEnd : Eats 0 L atEnd := eats_get

lemma eats_tables : Eats 0 L tables := eats_get

lemma eats_setTables (f : Tables → Tables) : Eats 0 L (setTables f) := fun _ _ => ⟨List.suffix_rfl, le_rfl⟩

lemma eats_skip : Eats 0 L skip := fun s _ => ⟨skipws_suffix _, (skipws_suffix s.rest).length_le⟩

lemma eats_step : Eats 0 L step := fun s _ => ⟨List.tail_suffix _, (List.tail_suffix s.rest).length_le⟩

lemma eats_name (msg : String) : Eats 1 L (name msg) := by
  intro s _
  unfold name
  simp only [wp_bind, wp_get]
  cases hsym : sym s.rest with
  | none => exact ⟨Stop.noConfusion, List.suffix_rfl⟩
  | some r =>
    obtain ⟨hne, happend⟩ := sym_append hsym
    have hpos := List.length_pos_iff.mpr hne
    have hlen := congrArg List.length happend
    rw [List.length_append] at hlen
    exact ⟨⟨r.1, happend⟩, show r.2.length + 1 ≤ s.rest.length by omega⟩

/-- A branch of a program that begins with the character it has seen. -/
lemma eats_seesStep {c : Char} (h : ∀ L', L = L' + 1 → Eats j L' m) (hk : k ≤ j + 1) (h' : Eats k L m') :
    Eats k L (sees c >>= fun b => if b then step >>= fun _ => m else m') := by
  rintro ⟨rest, tab⟩ hs
  simp only [sees, bind_assoc, pure_bind, wp_bind, wp_get]
  split_ifs with hc
  · cases rest with
    | nil => cases hc
    | cons x xs =>
      have hlen : (x :: xs).length = xs.length + 1 := List.length_cons
      change (x :: xs).length ≤ L at hs
      obtain ⟨L, rfl⟩ : ∃ L', L = L' + 1 := ⟨L - 1, by omega⟩
      refine wp_mono (h L rfl ⟨xs, tab⟩ (show xs.length ≤ L by omega)) (fun a s' h' => ?_) fun e s' h' => ?_
      · have hate : s'.rest.length + j ≤ xs.length := h'.2
        exact ⟨h'.1.trans (List.suffix_cons x xs), by omega⟩
      · exact ⟨h'.1, h'.2.trans (List.suffix_cons x xs)⟩
  · exact h' _ hs

lemma eats_expect (c : Char) (msg : String) : Eats 1 L (expect c msg) :=
  eats_seesStep (m := pure ()) (fun _ _ => .pure ()) le_rfl (.pfail msg)

lemma eats_closeIf : Eats 0 L closeIf :=
  eats_skip.next fun _ => eats_seesStep (m := pure ()) (fun _ _ => .pure ()) (Nat.zero_le _) (.pure ())

/-- The two bytes of an arrow are there when it is seen. -/
lemma eats_seesArrow (h : ∀ L', L = L' + 1 → Eats 0 L' m) (h' : Eats 0 L m') :
    Eats 0 L (seesArrow >>= fun b => if b then step >>= fun _ => step >>= fun _ => m else m') := by
  rintro ⟨rest, tab⟩ hs
  simp only [seesArrow, bind_assoc, pure_bind, wp_bind, wp_get]
  split_ifs with harrow
  · obtain ⟨xs, rfl⟩ := List.isPrefixOf_iff_prefix.mp harrow
    have hsuffix : xs <:+ lit "->" ++ xs := List.suffix_append _ xs
    have hlen : (lit "->" ++ xs).length = xs.length + 2 := by rw [List.length_append, Nat.add_comm]; rfl
    change (lit "->" ++ xs).length ≤ L at hs
    obtain ⟨L, rfl⟩ : ∃ L', L = L' + 1 := ⟨L - 1, by omega⟩
    refine wp_mono (h L rfl ⟨xs, tab⟩ (show xs.length ≤ L by omega)) (fun a s' h' => ?_) fun e s' h' => ?_
    · have hate : s'.rest.length + 0 ≤ xs.length := h'.2
      exact ⟨h'.1.trans hsuffix, by omega⟩
    · exact ⟨h'.1, h'.2.trans hsuffix⟩
  · exact h' _ hs

lemma eats_typeVar (n : Bytes) : Eats 0 L (typeVar n) := by
  unfold typeVar
  refine eats_tables.next fun t => ?_
  split
  · exact .pure _
  · exact eats_tables.next fun t => (eats_setTables _).next fun _ => .pure _

end

/-! ## Annotations -/

lemma eats_type (d : ℕ) :
    (∀ L, 2 * L + 1 ≤ d → Eats 1 L (typeAtom d)) ∧ (∀ L k, 2 * L + 2 ≤ d → Eats 0 L (typeArgs d k)) ∧
      ∀ L, 2 * L + 2 ≤ d → Eats 1 L (parseType d) := by
  induction d with
  | zero => exact ⟨fun L h => by omega, fun L k h => by omega, fun L h => by omega⟩
  | succ d ih =>
    obtain ⟨hatom, hargs, htype⟩ := ih
    refine ⟨fun L h => ?_, fun L k h => ?_, fun L h => ?_⟩
    · unfold typeAtom
      refine eats_skip.next fun _ => eats_seesStep (j := 1) (fun L' hL => ?_) (by omega) ?_
      · refine (htype L' (by omega)).used fun t L'' hL' => ?_
        exact eats_skip.next fun _ => (eats_expect _ _).after fun _ => .pure t
      · refine (eats_name _).used fun n L' hL => ?_
        refine eats_tables.next fun t => ?_
        split
        · exact (hargs L' _ (by omega)).next fun as => .pure _
        · refine eats_tables.next fun t => ?_
          split
          · exact .pure _
          · exact eats_typeVar n
    · cases k with
      | zero => exact .pure _
      | succ k =>
        unfold typeArgs
        refine ((hatom L (by omega)).used fun a L' hL => ?_).weaken (Nat.zero_le _)
        exact (hargs L' k (by omega)).next fun as => .pure _
    · unfold parseType
      refine (hatom L (by omega)).used fun a L' hL => ?_
      refine eats_skip.next fun _ => eats_seesArrow (fun L'' hL' => ?_) (.pure a)
      exact (htype L'' (by omega)).after fun b => .pure _

/-! ## Forms -/

section

variable {L : ℕ}

lemma eats_stringBody : Eats 0 L stringBody := by
  intro s _
  have hsuffix := decodeLoop_suffix s.rest.length [] s.rest
  exact ⟨hsuffix, hsuffix.length_le⟩

lemma eats_path : Eats 0 L path := by
  intro s _
  have hsuffix : (pathBody s.rest).2 <:+ s.rest := ⟨_, pathBody_append s.rest⟩
  exact ⟨hsuffix, hsuffix.length_le⟩

/-- The end of a form that is a character. -/
lemma eats_close {α : Type} (c : Char) (msg : String) (a : α) :
    Eats 0 L (skip >>= fun _ => expect c msg >>= fun _ => (pure a : RM α)) :=
  eats_skip.next fun _ => (eats_expect c msg).after fun _ => .pure a

lemma eats_directive (k : Bytes → RTerm) : Eats 0 L (directive k) :=
  eats_skip.next fun _ => (eats_name _).after fun n => eats_close _ _ (k n)

lemma eats_loadForm : Eats 0 L loadForm :=
  eats_skip.next fun _ => (eats_expect _ _).after fun _ => eats_path.next fun p =>
    (eats_expect _ _).after fun _ => eats_close _ _ (RTerm.load p)

lemma eats_fieldNames (d : ℕ) (h : L + 1 ≤ d) : Eats 0 L (fieldNames d) := by
  induction d generalizing L with
  | zero => omega
  | succ d ih =>
    refine eats_skip.next fun _ => eats_seesStep (j := 0) (fun _ _ => .pure []) (by omega) ?_
    refine ((eats_name _).used fun n L' hL => ?_).weaken (Nat.zero_le _)
    exact (ih (by omega)).next fun ns => .pure _

lemma eats_pattern (d : ℕ) (h : L + 1 ≤ d) : Eats 0 L (pattern d) := by
  refine eats_seesStep (j := 0) (fun L' hL => eats_skip.next fun _ => ?_) (by omega) ?_
  · exact (eats_name _).after fun _ => eats_fieldNames d (by omega)
  · exact (eats_name _).after fun _ => .pure []

lemma eats_typeParams (d i : ℕ) (h : L + 1 ≤ d) : Eats 0 L (typeParams d i) := by
  induction d generalizing L i with
  | zero => omega
  | succ d ih =>
    refine (eats_sees _).next fun b => .ite (fun _ => .pure i) fun _ => ?_
    refine ((eats_name _).used fun n L' hL => ?_).weaken (Nat.zero_le _)
    exact (eats_setTables _).next fun _ => eats_skip.next fun _ => ih (i + 1) (by omega)

lemma eats_datatypeHead (d : ℕ) (h : L + 1 ≤ d) : Eats 0 L (datatypeHead d) := by
  refine eats_seesStep (j := 0) (fun L' hL => eats_skip.next fun _ => ?_) (by omega) ?_
  · refine (eats_name _).after fun n => eats_skip.next fun _ => ?_
    exact (eats_typeParams d 0 (by omega)).next fun i => eats_step.next fun _ => .pure _
  · exact (eats_name _).after fun n => .pure _

lemma eats_fields (d : ℕ) (h : 2 * L + 1 ≤ d) : Eats 0 L (fields d) := by
  induction d generalizing L with
  | zero => omega
  | succ d ih =>
    refine (eats_sees _).next fun b => .ite (fun _ => .pure []) fun _ => ?_
    refine eats_seesStep (j := 0) (fun L' hL => eats_skip.next fun _ => ?_) (by omega) ?_
    · refine ((eats_name _).used fun n L'' hL' => eats_skip.next fun _ => ?_).weaken (Nat.zero_le _)
      refine ((eats_type d).2.2 L'' (by omega)).after fun t => eats_skip.next fun _ => ?_
      refine (eats_expect _ _).after fun _ => eats_skip.next fun _ => ?_
      exact (ih (by omega)).next fun fs => .pure _
    · refine ((eats_name _).used fun n L' hL => eats_skip.next fun _ => ?_).weaken (Nat.zero_le _)
      exact (ih (by omega)).next fun fs => .pure _

lemma eats_ctors (d : ℕ) (h : 2 * L + 1 ≤ d) : Eats 0 L (ctors d) := by
  induction d generalizing L with
  | zero => omega
  | succ d ih =>
    refine eats_seesStep (j := 0) (fun L' hL => eats_skip.next fun _ => ?_) (by omega) (.pure [])
    refine eats_seesStep (j := 0) (fun L'' hL' => ih (by omega)) (by omega) ?_
    refine ((eats_name _).used fun n L'' hL' => eats_skip.next fun _ => ?_).weaken (Nat.zero_le _)
    refine (eats_fields d (by omega)).next fun fs => eats_step.next fun _ => eats_skip.next fun _ => ?_
    exact (ih (by omega)).next fun cs => .pure _

lemma eats_datatypeForm (d : ℕ) (h : 2 * L + 1 ≤ d) : Eats 0 L (datatypeForm d) :=
  eats_skip.next fun _ => (eats_datatypeHead d (by omega)).next fun h' => (eats_setTables _).next fun _ =>
    eats_tables.next fun prev => (eats_setTables _).next fun _ => eats_skip.next fun _ =>
      (eats_ctors d h).next fun cs => (eats_setTables _).next fun _ => eats_closeIf.next fun _ => .pure _

end

/-! ## Terms -/

lemma eats_parse (d : ℕ) :
    (∀ L, 2 * L + 1 ≤ d → Eats 1 L (parseTerm d)) ∧ (∀ L, 2 * L + 2 ≤ d → Eats 0 L (group d)) ∧
      (∀ L f, 2 * L + 2 ≤ d → Eats 0 L (parseTail d f)) ∧ (∀ L app, 2 * L + 2 ≤ d → Eats 0 L (cases d app)) ∧
        ∀ L, 2 * L + 2 ≤ d → Eats 0 L (bindings d) := by
  induction d with
  | zero => exact ⟨fun L h => by omega, fun L h => by omega, fun L f h => by omega, fun L app h => by omega, fun L h => by omega⟩
  | succ d ih =>
    obtain ⟨hterm, hgroup, htail, hcases, hbindings⟩ := ih
    have hbody : ∀ {L} (g : RTerm → RTerm), 2 * L + 1 ≤ d →
        Eats 0 L (parseTerm d >>= fun b => parseTail d b >>= fun b => (pure (g b) : RM RTerm)) := by
      intro L g h
      refine ((hterm L h).used fun b L' hL => ?_).weaken (Nat.zero_le _)
      exact (htail L' b (by omega)).next fun b => .pure _
    refine ⟨fun L h => ?_, fun L h => ?_, fun L f h => ?_, fun L app h => ?_, fun L h => ?_⟩
    · unfold parseTerm
      refine eats_skip.next fun _ => eats_atEnd.next fun b => .ite (fun _ => .pfail _) fun _ => ?_
      refine (eats_sees _).next fun b => .ite (fun _ => .pfail _) fun _ => ?_
      refine eats_seesStep (j := 0) (fun L' hL => eats_stringBody.next fun dec => ?_) le_rfl ?_
      · exact (eats_expect _ _).after fun _ => .pure _
      · refine eats_seesStep (j := 0) (fun L' hL => eats_skip.next fun _ => hgroup L' (by omega)) le_rfl ?_
        exact (eats_name _).used fun kw L' hL => .pure _
    · unfold group
      refine (eats_sees _).next fun b => .ite (fun _ => ?_) fun _ => ?_
      · exact ((hterm L (by omega)).used fun f L' hL => htail L' f (by omega)).weaken (Nat.zero_le _)
      refine ((eats_name _).used fun kw L' hL => .ite (fun _ => ?_) fun _ => ?_).weaken (Nat.zero_le _)
      · exact eats_skip.next fun _ => (eats_name _).after fun var => hbody (.lam var) (by omega)
      refine .ite (fun _ => ?_) fun _ => .ite (fun _ => ?_) fun _ => ?_
      · refine eats_skip.next fun _ => (eats_name _).after fun n => ?_
        exact (hterm L' (by omega)).after fun v => eats_close _ _ (RTerm.defn n v)
      · refine eats_skip.next fun _ => (eats_name _).after fun n => ?_
        refine Eats.after (k := 1) ((eats_setTables _).next fun _ => (eats_type d).2.2 L' (by omega)) fun t => ?_
        exact (hterm L' (by omega)).after fun v => eats_close _ _ (RTerm.defx n t v)
      refine .ite (fun _ => eats_loadForm) fun _ => .ite (fun _ => eats_directive _) fun _ => ?_
      refine .ite (fun _ => eats_directive _) fun _ => .ite (fun _ => eats_directive _) fun _ => ?_
      refine .ite (fun _ => ?_) fun _ => .ite (fun _ => eats_datatypeForm d (by omega)) fun _ => .ite (fun _ => ?_) fun _ => ?_
      · refine (hterm L' (by omega)).after fun scrut => eats_skip.next fun _ => ?_
        exact (hcases L' scrut (by omega)).next fun app => eats_closeIf.next fun _ => .pure app
      · refine eats_skip.next fun _ => (eats_expect _ _).after fun _ => (hbindings L' (by omega)).next fun bs => ?_
        exact hbody _ (by omega)
      · exact htail L' _ (by omega)
    · unfold parseTail
      refine eats_skip.next fun _ => eats_seesStep (j := 0) (fun _ _ => .pure f) (by omega) ?_
      refine eats_atEnd.next fun b => .ite (fun _ => .pfail _) fun _ => ?_
      refine ((hterm L (by omega)).used fun a L' hL => ?_).weaken (Nat.zero_le _)
      exact htail L' _ (by omega)
    · unfold cases
      refine eats_seesStep (j := 0) (fun L' hL => eats_skip.next fun _ => ?_) (by omega) (.pure app)
      refine eats_seesStep (j := 0) (fun _ _ => .pure app) (by omega) ?_
      refine (eats_pattern d (by omega)).next fun vs => ?_
      refine ((hterm L' (by omega)).used fun b L'' hL' => ?_).weaken (Nat.zero_le _)
      exact (htail L'' b (by omega)).next fun b => eats_skip.next fun _ => hcases L'' _ (by omega)
    · unfold bindings
      refine eats_skip.next fun _ => eats_seesStep (j := 0) (fun _ _ => .pure []) (by omega) ?_
      refine ((eats_expect _ _).used fun _ L' hL => eats_skip.next fun _ => ?_).weaken (Nat.zero_le _)
      refine ((eats_name _).used fun n L'' hL' => ?_).weaken (Nat.zero_le _)
      refine (hterm L'' (by omega)).after fun v => eats_skip.next fun _ => ?_
      refine (eats_expect _ _).after fun _ => ?_
      exact (hbindings L'' (by omega)).next fun bs => .pure _

/-! ## More fuel -/

abbrev ReadLe {α : Type} (m m' : RM α) : Prop := FuelLe Stop.fuel m m'

lemma type_le (d : ℕ) : ReadLe (typeAtom d) (typeAtom (d + 1)) ∧ (∀ k, ReadLe (typeArgs d k) (typeArgs (d + 1) k)) ∧
    ReadLe (parseType d) (parseType (d + 1)) := by
  induction d with
  | zero => exact ⟨.throw _, fun _ => .throw _, .throw _⟩
  | succ d ih =>
    obtain ⟨hatom, hargs, htype⟩ := ih
    refine ⟨?_, fun k => ?_, ?_⟩
    · unfold typeAtom
      refine .next fun _ => .next fun b => .ite (.next fun _ => .bind htype fun t => .refl _) ?_
      refine .next fun n => .next fun t => ?_
      split
      · exact .bind (hargs _) fun as => .refl _
      · exact .refl _
    · cases k with
      | zero => exact .refl _
      | succ k => exact .bind hatom fun a => .bind (hargs k) fun as => .refl _
    · unfold parseType
      refine .bind hatom fun a => .next fun _ => .next fun b => .ite ?_ (.refl _)
      exact .next fun _ => .next fun _ => .bind htype fun b => .refl _

lemma fieldNames_le (d : ℕ) : ReadLe (fieldNames d) (fieldNames (d + 1)) := by
  induction d with
  | zero => exact .throw _
  | succ d ih => exact .next fun _ => .next fun b => .ite (.refl _) (.next fun n => .bind ih fun ns => .refl _)

lemma pattern_le (d : ℕ) : ReadLe (pattern d) (pattern (d + 1)) :=
  .next fun _ => .ite (.next fun _ => .next fun _ => .next fun _ => fieldNames_le d) (.refl _)

lemma typeParams_le (d i : ℕ) : ReadLe (typeParams d i) (typeParams (d + 1) i) := by
  induction d generalizing i with
  | zero => exact .throw _
  | succ d ih => exact .next fun b => .ite (.refl _) (.next fun n => .next fun _ => .next fun _ => ih (i + 1))

lemma datatypeHead_le (d : ℕ) : ReadLe (datatypeHead d) (datatypeHead (d + 1)) :=
  .next fun _ => .ite
    (.next fun _ => .next fun _ => .next fun _ => .next fun _ => .bind (typeParams_le d 0) fun _ => .refl _) (.refl _)

lemma fields_le (d : ℕ) : ReadLe (fields d) (fields (d + 1)) := by
  induction d with
  | zero => exact .throw _
  | succ d ih =>
    refine .next fun b => .ite (.refl _) (.next fun b => .ite ?_ ?_)
    · refine .next fun _ => .next fun _ => .next fun n => .next fun _ => .bind (type_le d).2.2 fun t => ?_
      exact .next fun _ => .next fun _ => .next fun _ => .bind ih fun fs => .refl _
    · exact .next fun n => .next fun _ => .bind ih fun fs => .refl _

lemma ctors_le (d : ℕ) : ReadLe (ctors d) (ctors (d + 1)) := by
  induction d with
  | zero => exact .throw _
  | succ d ih =>
    refine .next fun b => .ite (.next fun _ => .next fun _ => .next fun b => .ite (.next fun _ => ih) ?_) (.refl _)
    refine .next fun n => .next fun _ => .bind (fields_le d) fun fs => ?_
    exact .next fun _ => .next fun _ => .bind ih fun cs => .refl _

lemma datatypeForm_le (d : ℕ) : ReadLe (datatypeForm d) (datatypeForm (d + 1)) :=
  .next fun _ => .bind (datatypeHead_le d) fun _ => .next fun _ => .next fun _ => .next fun _ => .next fun _ =>
    .bind (ctors_le d) fun _ => .refl _

lemma parse_le (d : ℕ) : ReadLe (parseTerm d) (parseTerm (d + 1)) ∧ ReadLe (group d) (group (d + 1)) ∧
    (∀ f, ReadLe (parseTail d f) (parseTail (d + 1) f)) ∧ (∀ app, ReadLe (cases d app) (cases (d + 1) app)) ∧
      ReadLe (bindings d) (bindings (d + 1)) := by
  induction d with
  | zero => exact ⟨.throw _, .throw _, fun _ => .throw _, fun _ => .throw _, .throw _⟩
  | succ d ih =>
    obtain ⟨hterm, hgroup, htail, hcases, hbindings⟩ := ih
    refine ⟨?_, ?_, fun f => ?_, fun app => ?_, ?_⟩
    · unfold parseTerm
      refine .next fun _ => .next fun b => .ite (.refl _) (.next fun b => .ite (.refl _) (.next fun b => .ite (.refl _) ?_))
      exact .next fun b => .ite (.next fun _ => .next fun _ => hgroup) (.refl _)
    · unfold group
      refine .next fun b => .ite (.bind hterm fun f => htail f) (.next fun kw => .ite ?_ (.ite ?_ (.ite ?_ ?_)))
      · exact .next fun _ => .next fun var => .bind hterm fun b => .bind (htail b) fun b => .refl _
      · exact .next fun _ => .next fun n => .bind hterm fun v => .refl _
      · refine .next fun _ => .next fun n => .bind (.next fun _ => (type_le d).2.2) fun t => ?_
        exact .bind hterm fun v => .refl _
      refine .ite (.refl _) (.ite (.refl _) (.ite (.refl _) (.ite (.refl _) (.ite ?_ (.ite (datatypeForm_le d) (.ite ?_ ?_))))))
      · exact .bind hterm fun scrut => .next fun _ => .bind (hcases scrut) fun app => .refl _
      · refine .next fun _ => .next fun _ => .bind hbindings fun bs => ?_
        exact .bind hterm fun b => .bind (htail b) fun b => .refl _
      · exact htail _
    · unfold parseTail
      refine .next fun _ => .next fun b => .ite (.refl _) (.next fun b => .ite (.refl _) ?_)
      exact .bind hterm fun a => htail _
    · unfold cases
      refine .next fun b => .ite (.next fun _ => .next fun _ => .next fun b => .ite (.refl _) ?_) (.refl _)
      refine .bind (pattern_le d) fun vs => .bind hterm fun b => ?_
      exact .bind (htail b) fun b => .next fun _ => hcases _
    · unfold bindings
      refine .next fun _ => .next fun b => .ite (.refl _) (.next fun _ => .next fun _ => .next fun n => ?_)
      exact .bind hterm fun v => .next fun _ => .next fun _ => .bind hbindings fun bs => .refl _

/-! ## The loop over the forms -/

lemma resyncFrom_suffix (b : Bool) (depth : ℕ) (s : Bytes) : resyncFrom b depth s <:+ s := by
  induction s generalizing b depth with
  | nil => cases b <;> exact List.suffix_rfl
  | cons c cs ih =>
    have hcons : ∀ b depth, resyncFrom b depth cs <:+ c :: cs := fun b depth => (ih b depth).trans (List.suffix_cons c cs)
    cases b with
    | true => exact hcons _ _
    | false =>
      unfold resyncFrom
      split_ifs
      · exact hcons _ _
      · exact hcons _ _
      · exact List.suffix_cons c cs
      · exact hcons _ _
      · exact List.dropWhile_suffix _
      · exact hcons _ _

/-- A scan that does not begin at a blank or a comment leaves its first byte behind. -/
lemma resync_cons {c : UInt8} {cs : Bytes} (hspace : isspace c = false) (hcomment : c ≠ ch ';') :
    resync (c :: cs) <:+ cs := by
  unfold resync resyncFrom
  rw [if_neg hcomment]
  split_ifs with hopen hclose hzero hatom
  · exact resyncFrom_suffix _ _ _
  · exact List.suffix_rfl
  · exact resyncFrom_suffix _ _ _
  · have hsym : symChar c = true := by simp [symChar, hspace, hopen, hclose]
    rw [List.dropWhile_cons_of_pos hsym]
    exact List.dropWhile_suffix _
  · exact resyncFrom_suffix _ _ _

lemma parseTerm_le {d d' : ℕ} (hd : d ≤ d') : ReadLe (parseTerm d) (parseTerm d') :=
  fuelLe_of_le (fun d => (parse_le d).1) hd

/-- A run of the reader that does not spend its fuel is the run of every larger amount. -/
lemma parseTerm_stable {d d' : ℕ} (hd : d ≤ d') (s : State) :
    parseTerm d' s = parseTerm d s ∨ ∃ s', parseTerm d s = .error .fuel s' :=
  (parseTerm_le hd s).imp Eq.symm id

lemma readForm_stable {d d' : ℕ} (hd : d ≤ d') {s : State} {r : Delivery × State} (h : readForm d s = some r) :
    readForm d' s = some r := by
  unfold readForm at h ⊢
  rcases parseTerm_stable hd s with hrun | ⟨s', hrun⟩
  · rwa [hrun]
  · rw [hrun] at h
    cases h

lemma readForm_isSome {d : ℕ} {s : State} (hd : 2 * s.rest.length + 1 ≤ d) : ∃ r, readForm d s = some r := by
  have hrun := (eats_parse d).1 s.rest.length hd s le_rfl
  unfold wp at hrun
  unfold readForm
  split <;> rename_i heq
  · exact ⟨_, rfl⟩
  · exact ⟨_, rfl⟩
  · rw [heq] at hrun
    exact absurd rfl hrun.1

/-- Whether it is delivered or fails, a form leaves some of the text behind. -/
lemma readForm_advances {d : ℕ} {s s' : State} {x : Delivery} {c : UInt8} {cs : Bytes} (hs : skipws s.rest = c :: cs)
    (h : readForm d { s with rest := skipws s.rest } = some (x, s')) :
    s'.rest <:+ s.rest ∧ s'.rest.length < s.rest.length := by
  have hsuffix := skipws_suffix s.rest
  have hlen := hsuffix.length_le
  rw [hs] at h hsuffix hlen
  rw [List.length_cons] at hlen
  have hd : 2 * (c :: cs).length + 1 ≤ max d (2 * (c :: cs).length + 1) := le_max_right _ _
  have hrun := (eats_parse _).1 _ hd ⟨c :: cs, s.tab⟩ le_rfl
  replace h := readForm_stable (le_max_left d (2 * (c :: cs).length + 1)) h
  unfold wp at hrun
  unfold readForm at h
  split at h <;> rename_i heq
  · rw [heq] at hrun
    cases h
    refine ⟨hrun.1.trans hsuffix, ?_⟩
    have hate : s'.rest.length + 1 ≤ (c :: cs).length := hrun.2
    rw [List.length_cons] at hate
    omega
  · cases h
    obtain ⟨hspace, hcomment⟩ := skipFrom_head hs
    have hresync : resync (c :: cs) <:+ cs := resync_cons hspace hcomment
    refine ⟨hresync.trans ((List.suffix_cons c cs).trans hsuffix), ?_⟩
    have hle := hresync.length_le
    show (resync (c :: cs)).length < s.rest.length
    omega
  · cases h

section

variable {σ : Type} (fn : FormFn σ)

/-- The loop returns the same for every amount of fuel that is not too small, with at most one delivery for each byte. -/
lemma formsLoop_ends {L : ℕ} (ud : σ) (s : State) (hs : s.rest.length ≤ L) :
    ∃ r, (∀ d k, 2 * L + 1 ≤ d → L + 1 ≤ k → formsLoop fn d k ud s = some r) ∧ r.1.length ≤ s.rest.length := by
  induction L generalizing ud s with
  | zero =>
    refine ⟨([], ud, s.tab), fun d k _ hk => ?_, Nat.zero_le _⟩
    obtain ⟨k, rfl⟩ : ∃ k', k = k' + 1 := ⟨k - 1, by omega⟩
    have hnil : s.rest = [] := List.length_eq_zero_iff.mp (by omega)
    simp [formsLoop, hnil, skipws, skipFrom]
  | succ L ih =>
    rcases hskip : skipws s.rest with _ | ⟨c, cs⟩
    · refine ⟨([], ud, s.tab), fun d k _ hk => ?_, Nat.zero_le _⟩
      obtain ⟨k, rfl⟩ : ∃ k', k = k' + 1 := ⟨k - 1, by omega⟩
      simp [formsLoop, hskip]
    · have hlen := (skipws_suffix s.rest).length_le
      have hfuel : 2 * (skipws s.rest).length + 1 ≤ 2 * (L + 1) + 1 := by omega
      obtain ⟨⟨x, s'⟩, hread⟩ := readForm_isSome (s := { s with rest := skipws s.rest }) hfuel
      obtain ⟨-, hlt⟩ := readForm_advances hskip hread
      obtain ⟨r, hr, hcount⟩ := ih (fn x ud s'.tab).1 { s' with tab := (fn x ud s'.tab).2 }
        (show s'.rest.length ≤ L by omega)
      refine ⟨(x :: r.1, r.2), fun d k hd hk => ?_, ?_⟩
      · obtain ⟨k, rfl⟩ : ∃ k', k = k' + 1 := ⟨k - 1, by omega⟩
        have hne : skipws s.rest ≠ [] := hskip ▸ List.cons_ne_nil c cs
        simp [formsLoop, hne, readForm_stable hd hread, hr d k (by omega) (by omega)]
      · have hle : r.1.length ≤ s'.rest.length := hcount
        rw [List.length_cons]
        omega

end

end LinEngine.Reader
