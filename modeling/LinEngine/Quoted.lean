import LinEngine.Reading

/-!
# String literals

What the text between two quotes stands for, said without the reader's buffer, and what
becomes of it.
-/
namespace LinEngine.Reader

def isoctal (c : UInt8) : Bool := ch '0' ≤ c && c ≤ ch '7'

/-- A text that begins with two characters of a kind. -/
def twoOf (p : UInt8 → Bool) : Bytes → Bool
  | a :: b :: _ => p a && p b
  | _ => false

/-- The escapes of one character. -/
def shortEscapes : List (UInt8 × UInt8) := [(ch 'n', 10), (ch 't', 9), (ch 'r', 13), (ch 'e', 27)]

/-- The bytes that a text between two quotes stands for. -/
inductive Decoded : Bytes → Bytes → Prop
  | nil : Decoded [] []
  | plain {c : UInt8} {s bs : Bytes} : c ≠ ch '"' → c ≠ ch '\\' → Decoded s bs → Decoded (c :: s) (c :: bs)
  | short {e b : UInt8} {s bs : Bytes} : (e, b) ∈ shortEscapes → Decoded s bs → Decoded (ch '\\' :: e :: s) (b :: bs)
  | octal {x y : UInt8} {s bs : Bytes} : isoctal x → isoctal y → Decoded s bs →
    Decoded (ch '\\' :: ch '0' :: x :: y :: s) (((x - ch '0') * 8 + (y - ch '0')) :: bs)
  | zero {s bs : Bytes} : twoOf isoctal s = false → Decoded s bs → Decoded (ch '\\' :: ch '0' :: s) (0 :: bs)
  | hex {x y : UInt8} {s bs : Bytes} : isxdigit x → isxdigit y → Decoded s bs →
    Decoded (ch '\\' :: ch 'x' :: x :: y :: s) ((escape.hex x * 16 + escape.hex y) :: bs)
  | bareX {s bs : Bytes} : twoOf isxdigit s = false → Decoded s bs → Decoded (ch '\\' :: ch 'x' :: s) (ch 'x' :: bs)
  | other {e : UInt8} {s bs : Bytes} : (∀ b, (e, b) ∉ shortEscapes) → e ≠ ch '0' → e ≠ ch 'x' → Decoded s bs →
    Decoded (ch '\\' :: e :: s) (e :: bs)

/-! ## One escape -/

/-- A quote is no digit, so what the reader sees ahead is what the literal has. -/
lemma twoOf_quote {p : UInt8 → Bool} (hp : p (ch '"') = false) (s r : Bytes) :
    twoOf p (s ++ ch '"' :: r) = twoOf p s := by
  match s with
  | [] => cases r <;> simp [twoOf, hp]
  | [x] => simp [twoOf, hp]
  | x :: y :: s => rfl

lemma twoOf_cons {p : UInt8 → Bool} {s : Bytes} (h : twoOf p s) : ∃ a b r, s = a :: b :: r ∧ p a ∧ p b := by
  match s with
  | [] => cases h
  | [x] => cases h
  | x :: y :: s => exact ⟨x, y, s, rfl, (Bool.and_eq_true_iff.mp h).1, (Bool.and_eq_true_iff.mp h).2⟩

lemma escape_short {e b : UInt8} (h : (e, b) ∈ shortEscapes) (cs : Bytes) : escape e cs = (b, cs) := by
  simp only [shortEscapes, List.mem_cons, Prod.mk.injEq, List.not_mem_nil, or_false] at h
  rcases h with ⟨rfl, rfl⟩ | ⟨rfl, rfl⟩ | ⟨rfl, rfl⟩ | ⟨rfl, rfl⟩ <;> rfl

lemma escape_octal {x y : UInt8} (hx : isoctal x) (hy : isoctal y) (cs : Bytes) :
    escape (ch '0') (x :: y :: cs) = ((x - ch '0') * 8 + (y - ch '0'), cs) := by
  simp only [isoctal, Bool.and_eq_true, decide_eq_true_eq] at hx hy
  have h : ch '0' ≤ x ∧ x ≤ ch '7' ∧ ch '0' ≤ y ∧ y ≤ ch '7' := ⟨hx.1, hx.2, hy⟩
  exact if_pos h

lemma escape_zero {cs : Bytes} (h : twoOf isoctal cs = false) : escape (ch '0') cs = (0, cs) := by
  match cs with
  | [] => rfl
  | [x] => rfl
  | x :: y :: cs =>
    have hcode : escape (ch '0') (x :: y :: cs) =
        if ch '0' ≤ x ∧ x ≤ ch '7' ∧ ch '0' ≤ y ∧ y ≤ ch '7' then ((x - ch '0') * 8 + (y - ch '0'), cs)
        else (0, x :: y :: cs) := rfl
    rw [hcode, if_neg]
    rintro ⟨h₁, h₂, h₃, h₄⟩
    simp [twoOf, isoctal, h₁, h₂, h₃, h₄] at h

lemma escape_hex {x y : UInt8} (hx : isxdigit x) (hy : isxdigit y) (cs : Bytes) :
    escape (ch 'x') (x :: y :: cs) = (escape.hex x * 16 + escape.hex y, cs) := by
  have hcode : escape (ch 'x') (x :: y :: cs) =
      if isxdigit x ∧ isxdigit y then (escape.hex x * 16 + escape.hex y, cs) else (ch 'x', x :: y :: cs) := rfl
  rw [hcode, if_pos ⟨hx, hy⟩]

lemma escape_bareX {cs : Bytes} (h : twoOf isxdigit cs = false) : escape (ch 'x') cs = (ch 'x', cs) := by
  match cs with
  | [] => rfl
  | [x] => rfl
  | x :: y :: cs =>
    have hcode : escape (ch 'x') (x :: y :: cs) =
        if isxdigit x ∧ isxdigit y then (escape.hex x * 16 + escape.hex y, cs) else (ch 'x', x :: y :: cs) := rfl
    rw [hcode, if_neg]
    rintro ⟨h₁, h₂⟩
    simp [twoOf, h₁, h₂] at h

lemma escape_other {e : UInt8} (hshort : ∀ b, (e, b) ∉ shortEscapes) (hzero : e ≠ ch '0') (hx : e ≠ ch 'x') (cs : Bytes) :
    escape e cs = (e, cs) := by
  simp only [shortEscapes, List.mem_cons, Prod.mk.injEq, List.not_mem_nil, or_false, not_or, not_and] at hshort
  have hn : e ≠ ch 'n' := fun h => (hshort 10).1 h rfl
  have ht : e ≠ ch 't' := fun h => (hshort 9).2.1 h rfl
  have hr : e ≠ ch 'r' := fun h => (hshort 13).2.2.1 h rfl
  have he : e ≠ ch 'e' := fun h => (hshort 27).2.2.2 h rfl
  simp [escape, hn, ht, hr, he, hzero, hx]

lemma nextByte_plain {c : UInt8} (h : c ≠ ch '\\') (cs : Bytes) : nextByte c cs = (c, cs) := by
  cases cs with
  | nil => rfl
  | cons e cs => exact if_neg h

lemma nextByte_escape (e : UInt8) (cs : Bytes) : nextByte (ch '\\') (e :: cs) = escape e cs := rfl

/-! ## The loop -/

/-- The bytes that have found room. -/
def push (dec : Bytes) (b : UInt8) : Bytes := if dec.length < decSize then dec ++ [b] else dec

lemma push_take {dec : Bytes} (h : dec.length ≤ decSize) (b : UInt8) (bs : Bytes) :
    (push dec b).length ≤ decSize ∧ (push dec b ++ bs).take decSize = (dec ++ b :: bs).take decSize := by
  unfold push
  split_ifs with hroom
  · exact ⟨by simpa using hroom, by simp⟩
  · have hfull : dec.length = decSize := by omega
    exact ⟨h, by simp [← hfull]⟩

lemma decodeLoop_cons {d : ℕ} {c : UInt8} {cs dec : Bytes} (hc : c ≠ ch '"') {b : UInt8} {rest : Bytes}
    (hnext : nextByte c cs = (b, rest)) : decodeLoop (d + 1) dec (c :: cs) = decodeLoop d (push dec b) rest := by
  rw [decodeLoop, if_neg hc, hnext]
  rfl

lemma backslash_quote : ch '\\' ≠ ch '"' := by decide

/-- The reader decodes a literal into as many of its bytes as there is room for. -/
lemma Decoded.run {src bs : Bytes} (h : Decoded src bs) (r : Bytes) {d : ℕ} {dec : Bytes} (hd : src.length ≤ d)
    (hdec : dec.length ≤ decSize) :
    decodeLoop d dec (src ++ ch '"' :: r) = ((dec ++ bs).take decSize, ch '"' :: r) := by
  -- Each escape is one turn of the loop, which pushes one byte.
  have hturn : ∀ {c : UInt8} {cs rest bs : Bytes} {b : UInt8} {d : ℕ} {dec : Bytes}, c ≠ ch '"' → nextByte c cs = (b, rest) →
      dec.length ≤ decSize →
      (∀ {dec : Bytes}, dec.length ≤ decSize → decodeLoop d dec rest = ((dec ++ bs).take decSize, ch '"' :: r)) →
      decodeLoop (d + 1) dec (c :: cs) = ((dec ++ b :: bs).take decSize, ch '"' :: r) := by
    intro c cs rest bs b d dec hc hnext hdec ih
    rw [decodeLoop_cons hc hnext, ih (push_take hdec b bs).1, (push_take hdec b bs).2]
  have hpos : ∀ {a b : UInt8} {s : Bytes} {d : ℕ}, (a :: b :: s).length ≤ d → ∃ k, d = k + 1 := by
    intro a b s d h
    rw [List.length_cons] at h
    exact ⟨d - 1, by omega⟩
  induction h generalizing d dec with
  | nil =>
    rw [List.append_nil, List.take_of_length_le hdec]
    cases d with
    | zero => rfl
    | succ d => exact if_pos rfl
  | plain hquote hback _ ih =>
    obtain ⟨d, rfl⟩ := Nat.exists_eq_succ_of_ne_zero (n := d) (by rw [List.length_cons] at hd; omega)
    exact hturn hquote (nextByte_plain hback _) hdec (ih (by simpa using hd))
  | short he _ ih =>
    obtain ⟨d, rfl⟩ := hpos hd
    exact hturn backslash_quote (escape_short he _) hdec (ih (by simp at hd; omega))
  | octal hx hy _ ih =>
    obtain ⟨d, rfl⟩ := hpos hd
    exact hturn backslash_quote (escape_octal hx hy _) hdec (ih (by simp at hd; omega))
  | @zero s _ hs _ ih =>
    obtain ⟨d, rfl⟩ := hpos hd
    have hahead : twoOf isoctal (s ++ ch '"' :: r) = false := by rwa [twoOf_quote rfl]
    exact hturn backslash_quote (escape_zero hahead) hdec (ih (by simp at hd; omega))
  | hex hx hy _ ih =>
    obtain ⟨d, rfl⟩ := hpos hd
    exact hturn backslash_quote (escape_hex hx hy _) hdec (ih (by simp at hd; omega))
  | @bareX s _ hs _ ih =>
    obtain ⟨d, rfl⟩ := hpos hd
    have hahead : twoOf isxdigit (s ++ ch '"' :: r) = false := by rwa [twoOf_quote rfl]
    exact hturn backslash_quote (escape_bareX hahead) hdec (ih (by simp at hd; omega))
  | other hshort hzero hx _ ih =>
    obtain ⟨d, rfl⟩ := hpos hd
    exact hturn backslash_quote (escape_other hshort hzero hx _) hdec (ih (by simp at hd; omega))

lemma Decoded.run_nil {src bs : Bytes} (h : Decoded src bs) (r : Bytes) :
    decodeLoop (src ++ ch '"' :: r).length [] (src ++ ch '"' :: r) = (bs.take decSize, ch '"' :: r) :=
  h.run r (by rw [List.length_append]; omega) (Nat.zero_le _)

/-- What the reader takes for a literal is one. -/
lemma decoded_of_run {d : ℕ} {dec dec' s r : Bytes} (hd : s.length ≤ d)
    (h : decodeLoop d dec s = (dec', ch '"' :: r)) : ∃ src bs, s = src ++ ch '"' :: r ∧ Decoded src bs := by
  induction d generalizing dec s with
  | zero =>
    obtain rfl := List.length_eq_zero_iff.mp (Nat.le_zero.mp hd)
    cases h
  | succ d ih =>
    cases s with
    | nil => cases h
    | cons c cs =>
      by_cases hc : c = ch '"'
      · subst hc
        rw [decodeLoop, if_pos rfl] at h
        obtain ⟨-, heq⟩ := Prod.mk.inj h
        exact ⟨[], [], heq, .nil⟩
      rw [decodeLoop_cons hc rfl] at h
      have hsuffix := nextByte_suffix c cs
      have hlen := hsuffix.length_le
      rw [List.length_cons] at hd
      obtain ⟨src, bs, heq, hdecoded⟩ := ih (hlen.trans (Nat.le_of_succ_le_succ hd)) h
      by_cases hback : c = ch '\\'
      · subst hback
        cases cs with
        | nil =>
          rw [nextByte] at heq
          simp at heq
        | cons e cs =>
          rw [nextByte_escape] at heq
          by_cases hshort : ∃ b, (e, b) ∈ shortEscapes
          · obtain ⟨b, hb⟩ := hshort
            rw [escape_short hb] at heq
            obtain rfl : cs = src ++ ch '"' :: r := heq
            exact ⟨ch '\\' :: e :: src, b :: bs, rfl, .short hb hdecoded⟩
          push Not at hshort
          by_cases hzero : e = ch '0'
          · subst hzero
            by_cases hahead : twoOf isoctal cs
            · obtain ⟨x, y, cs, rfl, hx, hy⟩ := twoOf_cons hahead
              rw [escape_octal hx hy] at heq
              obtain rfl : cs = src ++ ch '"' :: r := heq
              exact ⟨_ :: _ :: x :: y :: src, _, rfl, .octal hx hy hdecoded⟩
            · rw [escape_zero (by simpa using hahead)] at heq
              subst heq
              rw [twoOf_quote rfl] at hahead
              exact ⟨_ :: _ :: src, _, rfl, .zero (by simpa using hahead) hdecoded⟩
          by_cases hx : e = ch 'x'
          · subst hx
            by_cases hahead : twoOf isxdigit cs
            · obtain ⟨x, y, cs, rfl, hx, hy⟩ := twoOf_cons hahead
              rw [escape_hex hx hy] at heq
              obtain rfl : cs = src ++ ch '"' :: r := heq
              exact ⟨_ :: _ :: x :: y :: src, _, rfl, .hex hx hy hdecoded⟩
            · rw [escape_bareX (by simpa using hahead)] at heq
              subst heq
              rw [twoOf_quote rfl] at hahead
              exact ⟨_ :: _ :: src, _, rfl, .bareX (by simpa using hahead) hdecoded⟩
          rw [escape_other hshort hzero hx] at heq
          obtain rfl : cs = src ++ ch '"' :: r := heq
          exact ⟨_ :: e :: src, e :: bs, rfl, .other hshort hzero hx hdecoded⟩
      · rw [nextByte_plain hback] at heq
        obtain rfl : cs = src ++ ch '"' :: r := heq
        exact ⟨c :: src, c :: bs, rfl, .plain hc hback hdecoded⟩

/-! ## The literal as a term -/

/-- How many bytes a chain has. -/
def chainLength : RTerm → ℕ
  | .app (.app _ _) t => chainLength t + 1
  | _ => 0

lemma chainLength_chain (bs : Bytes) : chainLength (chain bs) = bs.length := by
  induction bs with
  | nil => rfl
  | cons b bs ih => exact congrArg (· + 1) ih

lemma chain_take (bs : Bytes) : chain (bs.take decSize) = chain bs ↔ bs.length ≤ decSize := by
  refine ⟨fun h => ?_, fun h => by rw [List.take_of_length_le h]⟩
  have hlen := congrArg chainLength h
  rw [chainLength_chain, chainLength_chain, List.length_take] at hlen
  omega

/-- At a quote the reader reads a literal. -/
lemma parseTerm_quote {d : ℕ} {s : State} {body : Bytes} (hs : skipws s.rest = ch '"' :: body) :
    parseTerm (d + 1) s = stringLiteral ⟨ch '"' :: body, s.tab⟩ := by
  have hskip : skip s = .ok () ⟨ch '"' :: body, s.tab⟩ := by rw [← hs]; rfl
  unfold parseTerm
  change EStateM.bind skip _ s = _
  rw [EStateM.bind, hskip]
  rfl

lemma stringLiteral_eq (body : Bytes) (tab : Tables) :
    stringLiteral ⟨ch '"' :: body, tab⟩ =
      (expect '"' "unterminated string literal" >>= fun _ => pure (chain (decodeLoop body.length [] body).1))
        ⟨(decodeLoop body.length [] body).2, tab⟩ := rfl

lemma stringLiteral_closed {body dec r : Bytes} {tab : Tables} (h : decodeLoop body.length [] body = (dec, ch '"' :: r)) :
    stringLiteral ⟨ch '"' :: body, tab⟩ = .ok (chain dec) ⟨r, tab⟩ := by
  rw [stringLiteral_eq, h]
  rfl

lemma stringLiteral_ok {body : Bytes} {tab : Tables} {t : RTerm} {s' : State}
    (h : stringLiteral ⟨ch '"' :: body, tab⟩ = .ok t s') : ∃ dec, decodeLoop body.length [] body = (dec, ch '"' :: s'.rest) := by
  rw [stringLiteral_eq] at h
  rcases hloop : decodeLoop body.length [] body with ⟨dec, r⟩
  rw [hloop] at h
  cases r with
  | nil => cases h
  | cons c cs =>
    by_cases hc : c = ch '"'
    · subst hc
      cases h
      exact ⟨dec, rfl⟩
    · have hsees : sees '"' ⟨c :: cs, tab⟩ = .ok false ⟨c :: cs, tab⟩ := by
        change EStateM.Result.ok (some c == some (ch '"')) _ = _
        simp [hc]
      unfold expect at h
      change EStateM.bind (EStateM.bind (sees '"') _) _ _ = _ at h
      rw [EStateM.bind, EStateM.bind, hsees] at h
      cases h

lemma parseTerm_pos {d : ℕ} {s s' : State} {t : RTerm} (h : parseTerm d s = .ok t s') : ∃ k, d = k + 1 := by
  cases d with
  | zero => cases h
  | succ d => exact ⟨d, rfl⟩

/-- A literal that the reader accepts ends at its quote, and the term keeps all of its bytes exactly
when there is room for them. -/
theorem stringLiteral_keeps {d : ℕ} {s s' : State} {t : RTerm} {body : Bytes} (hs : skipws s.rest = ch '"' :: body)
    (h : parseTerm d s = .ok t s') :
    (∃ src bs, body = src ++ ch '"' :: s'.rest ∧ Decoded src bs) ∧
      ∀ src bs, body = src ++ ch '"' :: s'.rest → Decoded src bs → (t = chain bs ↔ bs.length ≤ decSize) := by
  obtain ⟨d, rfl⟩ := parseTerm_pos h
  rw [parseTerm_quote hs] at h
  obtain ⟨dec, hloop⟩ := stringLiteral_ok h
  refine ⟨decoded_of_run le_rfl hloop, fun src bs hbody hdecoded => ?_⟩
  subst hbody
  rw [stringLiteral_closed (hdecoded.run_nil s'.rest)] at h
  injection h with hterm _
  rw [← hterm]
  exact chain_take bs

theorem stringLiteral_keeps_escapes :
    (∃ src bs, lit "a\\x41\" b" = src ++ ch '"' :: lit " b" ∧ Decoded src bs) ∧
      ∀ src bs, lit "a\\x41\" b" = src ++ ch '"' :: lit " b" → Decoded src bs →
        (chain [97, 65] = chain bs ↔ bs.length ≤ decSize) :=
  have hquote : skipws (lit " \"a\\x41\" b") = ch '"' :: lit "a\\x41\" b" := by decide +kernel
  have hloop : decodeLoop (lit "a\\x41\" b").length [] (lit "a\\x41\" b") = ([97, 65], ch '"' :: lit " b") := by
    decide +kernel
  stringLiteral_keeps (d := 1) (s := ⟨lit " \"a\\x41\" b", .start⟩) hquote
    ((parseTerm_quote hquote).trans (stringLiteral_closed hloop))

/-- Bytes of a literal that is longer than the buffer are lost. -/
theorem stringLiteral_drops : ∃ (s : State) (t : RTerm) (s' : State) (src bs : Bytes),
    s.rest = ch '"' :: (src ++ ch '"' :: s'.rest) ∧ parseTerm 1 s = .ok t s' ∧ Decoded src bs ∧ t ≠ chain bs := by
  have hplain : ∀ n, Decoded (List.replicate n (ch 'a')) (List.replicate n (ch 'a')) := by
    intro n
    induction n with
    | zero => exact .nil
    | succ n ih => exact .plain (by decide) (by decide) ih
  have hrun := (hplain (decSize + 1)).run_nil []
  refine ⟨⟨ch '"' :: (List.replicate (decSize + 1) (ch 'a') ++ [ch '"']), .start⟩,
    chain ((List.replicate (decSize + 1) (ch 'a')).take decSize), ⟨[], .start⟩, List.replicate (decSize + 1) (ch 'a'),
    List.replicate (decSize + 1) (ch 'a'), rfl, ?_, hplain (decSize + 1), fun h => ?_⟩
  · exact (parseTerm_quote rfl).trans (stringLiteral_closed hrun)
  · have hle := (chain_take _).mp h
    rw [List.length_replicate] at hle
    exact absurd hle (Nat.not_succ_le_self _)

end LinEngine.Reader
