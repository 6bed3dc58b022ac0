import Mathlib

/-!
# Reading what was written

Readers of a sequence of bytes, and when a reader takes exactly what a writer puts out: it returns
a value if and only if the sequence starts with the bytes of that value. Each way to build a reader
has a rule for the writer that goes with it.
-/
namespace Format

variable {α γ : Type}

/-- What is read from the front, and what is left. -/
abbrev Reader (α : Type) := StateT (List UInt8) Option α

/-- `p` returns `a` exactly at the front of a sequence that starts with the bytes of `a`, a value that fits. -/
def Parses (p : Reader α) (fits : α → Prop) (bytes : α → List UInt8) : Prop :=
  ∀ s a r, p s = some (a, r) ↔ fits a ∧ s = bytes a ++ r

/-- The next `k` bytes. -/
def fread (k : ℕ) : Reader (List UInt8) := fun s => if k ≤ s.length then some (s.take k, s.drop k) else none

/-- One value after another. -/
def times (p : Reader α) : ℕ → Reader (List α)
  | 0 => pure []
  | k + 1 => do
    let x ← p
    let xs ← times p k
    pure (x :: xs)

lemma parses_fread (k : ℕ) : Parses (fread k) (fun x => x.length = k) id := by
  intro s a r
  unfold fread
  constructor
  · intro h
    split_ifs at h with hk
    simp only [Option.some.injEq, Prod.mk.injEq] at h
    obtain ⟨rfl, rfl⟩ := h
    exact ⟨List.length_take_of_le hk, (List.take_append_drop k s).symm⟩
  · rintro ⟨rfl, rfl⟩
    simp

lemma parses_pure (a : α) : Parses (pure a) (fun x => x = a) fun _ => [] := by
  intro s x r
  have hrun : (pure a : Reader α) s = some (a, s) := rfl
  rw [hrun, Option.some.injEq, Prod.mk.injEq]
  constructor
  · rintro ⟨rfl, rfl⟩
    exact ⟨rfl, rfl⟩
  · rintro ⟨rfl, rfl⟩
    exact ⟨rfl, rfl⟩

/-- The second value tells which the first was. -/
lemma Parses.bind {p : Reader α} {q : α → Reader γ} {fits : α → Prop} {bytes : α → List UInt8} {fits' : α → γ → Prop}
    {bytes' : α → γ → List UInt8} (hp : Parses p fits bytes) (hq : ∀ a, Parses (q a) (fits' a) (bytes' a)) (first : γ → α)
    (hfirst : ∀ a c, fits a → fits' a c → first c = a) :
    Parses (p >>= q) (fun c => fits (first c) ∧ fits' (first c) c) fun c => bytes (first c) ++ bytes' (first c) c := by
  intro s c r
  have hrun : (p >>= q) s = (p s).bind fun x => q x.1 x.2 := rfl
  rw [hrun, Option.bind_eq_some_iff]
  constructor
  · rintro ⟨⟨a, s'⟩, ha, hc⟩
    obtain ⟨hfit, rfl⟩ := (hp s a s').mp ha
    obtain ⟨hfit', rfl⟩ := (hq a s' c r).mp hc
    obtain rfl := hfirst a c hfit hfit'
    exact ⟨⟨hfit, hfit'⟩, by rw [List.append_assoc]⟩
  · rintro ⟨⟨hfit, hfit'⟩, rfl⟩
    rw [List.append_assoc]
    exact ⟨(first c, bytes' (first c) c ++ r), (hp _ _ _).mpr ⟨hfit, rfl⟩, (hq _ _ _ _).mpr ⟨hfit', rfl⟩⟩

/-- Other words for what fits and for its bytes. -/
lemma Parses.congr {p : Reader α} {fits fits' : α → Prop} {bytes bytes' : α → List UInt8} (h : Parses p fits bytes)
    (hfits : ∀ a, fits' a ↔ fits a) (hbytes : ∀ a, fits a → bytes' a = bytes a) : Parses p fits' bytes' := by
  intro s a r
  rw [h s a r, hfits a]
  exact and_congr_right fun ha => by rw [hbytes a ha]

lemma Parses.times {p : Reader α} {fits : α → Prop} {bytes : α → List UInt8} (hp : Parses p fits bytes) (k : ℕ) :
    Parses (times p k) (fun xs => xs.length = k ∧ ∀ x ∈ xs, fits x) fun xs => xs.flatMap bytes := by
  induction k with
  | zero =>
    refine (parses_pure []).congr (fun xs => ?_) fun xs hxs => by rw [hxs]; rfl
    rw [List.length_eq_zero_iff, and_iff_left_of_imp]
    rintro rfl x hx
    cases hx
  | succ k ih =>
    intro s xs r
    have hrun : Format.times p (k + 1) s = (p s).bind fun x => (Format.times p k x.2).bind fun y => some (x.1 :: y.1, y.2) := rfl
    rw [hrun, Option.bind_eq_some_iff]
    constructor
    · rintro ⟨⟨x, s'⟩, hx, hxs⟩
      obtain ⟨⟨ys, s''⟩, hys, heq⟩ := Option.bind_eq_some_iff.mp hxs
      obtain ⟨rfl, rfl⟩ := Prod.mk.inj (Option.some.inj heq)
      obtain ⟨hfit, rfl⟩ := (hp _ _ _).mp hx
      obtain ⟨⟨hlen, hfits⟩, rfl⟩ := (ih _ _ _).mp hys
      refine ⟨⟨by rw [List.length_cons, hlen], List.forall_mem_cons.mpr ⟨hfit, hfits⟩⟩, ?_⟩
      dsimp only
      rw [List.flatMap_cons, List.append_assoc]
    · rintro ⟨⟨hlen, hfits⟩, rfl⟩
      dsimp only
      cases xs with
      | nil => cases hlen
      | cons x ys =>
        rw [List.forall_mem_cons] at hfits
        rw [List.flatMap_cons, List.append_assoc]
        refine ⟨(x, ys.flatMap bytes ++ r), (hp _ _ _).mpr ⟨hfits.1, rfl⟩, ?_⟩
        rw [(ih _ ys r).mpr ⟨⟨Nat.succ.inj hlen, hfits.2⟩, rfl⟩]
        rfl

lemma parses_ite {c : Prop} [Decidable c] {p q : Reader α} {fits fits' : α → Prop} {bytes bytes' : α → List UInt8}
    (hp : Parses p fits bytes) (hq : Parses q fits' bytes') :
    Parses (if c then p else q) (fun a => if c then fits a else fits' a) fun a => if c then bytes a else bytes' a := by
  by_cases hc : c
  · simpa only [if_pos hc] using hp
  · simpa only [if_neg hc] using hq

lemma parses_when {c : Prop} [Decidable c] {p : Reader α} {fits : α → Prop} {bytes : α → List UInt8} (hp : Parses p fits bytes) :
    Parses (if c then p else failure) (fun a => c ∧ fits a) bytes := by
  intro s a r
  dsimp only
  by_cases hc : c
  · rw [if_pos hc, and_iff_right hc]
    exact hp s a r
  · rw [if_neg hc]
    exact ⟨fun h => (nomatch h), fun h => absurd h.1.1 hc⟩

/-- What holds of all that may have been written at the front holds of what is read there. -/
lemma Parses.forall_iff {p : Reader α} {fits : α → Prop} {bytes : α → List UInt8} (hp : Parses p fits bytes) {s : List UInt8}
    {Q : α → List UInt8 → Prop} :
    (∀ a r, fits a → s = bytes a ++ r → Q a r) ↔ ∀ a r, p s = some (a, r) → Q a r := by
  simp only [hp s, and_imp]

/-- The same at a front that was read. -/
lemma forall_read {x : α} {s : List UInt8} {Q : α → List UInt8 → Prop} :
    (∀ a r, some (x, s) = some (a, r) → Q a r) ↔ Q x s := by
  constructor
  · exact fun h => h x s rfl
  · rintro h a r heq
    obtain ⟨rfl, rfl⟩ := Prod.mk.inj (Option.some.inj heq)
    exact h

/-- A value is read at the front of what was written for it, with anything behind. -/
lemma Parses.read {p : Reader α} {fits : α → Prop} {bytes : α → List UInt8} (hp : Parses p fits bytes) {a : α} (ha : fits a)
    (r : List UInt8) : p (bytes a ++ r) = some (a, r) := (hp _ a r).mpr ⟨ha, rfl⟩

/-! ## Words -/

/-- The four bytes of a word, the lowest first. -/
def wordBytes (w : ℕ) : List UInt8 := [.ofNat w, .ofNat (w / 256), .ofNat (w / 65536), .ofNat (w / 16777216)]

/-- The number that bytes make, the lowest first. -/
def ofBytes (b : List UInt8) : ℕ := b.foldr (fun x w => x.toNat + 256 * w) 0

def word : Reader ℕ := ofBytes <$> fread 4

@[simp] lemma wordBytes_length (w : ℕ) : (wordBytes w).length = 4 := rfl

lemma ofBytes_wordBytes {w : ℕ} (h : w < 2 ^ 32) : ofBytes (wordBytes w) = w := by
  simp only [ofBytes, wordBytes, List.foldr, UInt8.toNat_ofNat']
  omega

lemma wordBytes_ofBytes {b : List UInt8} (h : b.length = 4) : ofBytes b < 2 ^ 32 ∧ wordBytes (ofBytes b) = b := by
  match b, h with
  | [b₀, b₁, b₂, b₃], _ =>
    have h₀ := b₀.toNat_lt
    have h₁ := b₁.toNat_lt
    have h₂ := b₂.toNat_lt
    have h₃ := b₃.toNat_lt
    simp only [ofBytes, wordBytes, List.foldr, List.cons.injEq, and_true]
    refine ⟨by omega, ?_, ?_, ?_, ?_⟩ <;> apply UInt8.toNat_inj.mp <;> rw [UInt8.toNat_ofNat'] <;> omega

lemma parses_word : Parses word (fun w => w < 2 ^ 32) wordBytes := by
  intro s w r
  have hrun : word s = (fread 4 s).map fun x => (ofBytes x.1, x.2) := by
    rw [Option.map_eq_bind]
    rfl
  rw [hrun, Option.map_eq_some_iff]
  constructor
  · rintro ⟨⟨b, s'⟩, hb, heq⟩
    obtain ⟨rfl, rfl⟩ := Prod.mk.inj heq
    obtain ⟨hlen, rfl⟩ := (parses_fread 4 _ _ _).mp hb
    obtain ⟨hlt, hback⟩ := wordBytes_ofBytes hlen
    exact ⟨hlt, by rw [hback]; rfl⟩
  · rintro ⟨hlt, rfl⟩
    exact ⟨(wordBytes w, r), (parses_fread 4).read (wordBytes_length w) r, by rw [ofBytes_wordBytes hlt]⟩

/-- A count and as many values. -/
def counted (p : Reader α) : Reader (List α) := do
  let k ← word
  times p k

lemma Parses.counted {p : Reader α} {fits : α → Prop} {bytes : α → List UInt8} (hp : Parses p fits bytes) :
    Parses (counted p) (fun xs => xs.length < 2 ^ 32 ∧ ∀ x ∈ xs, fits x) fun xs => wordBytes xs.length ++ xs.flatMap bytes := by
  refine (parses_word.bind (fun k => hp.times k) List.length fun k xs _ h => h.1).congr (fun xs => ?_) fun xs _ => rfl
  rw [eq_self_iff_true, true_and]

end Format
