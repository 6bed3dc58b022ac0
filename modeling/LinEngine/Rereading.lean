import LinEngine.Lambda
import LinEngine.Printing
import LinEngine.Reading

/-!
# Reading a printed term

The text of a nameless term, its binders named by depth as the printer names them. The
reader makes one form of it, and that is the term again.
-/
namespace LinEngine

open Lambda

/-! ## Names -/

namespace Printing

lemma binderName_injective : Function.Injective binderName := by
  intro d e h
  have hletter : ∀ k, (Char.ofNat (97 + k % 26)).toNat = 97 + k % 26 := fun k => by
    have hk : k % 26 < 26 := Nat.mod_lt _ (by omega)
    rw [Char.toNat_ofNat]
    split_ifs with hv
    · rfl
    · exact absurd (show Nat.isValidChar (97 + k % 26) from Or.inl (by omega)) hv
  obtain ⟨hhead, htail⟩ := List.cons.inj h
  have hmod : d % 26 = e % 26 := by
    have := congrArg Char.toNat hhead
    rw [hletter, hletter] at this
    omega
  have hdiv : d / 26 = e / 26 := by
    have hval : ∀ k, Nat.ofDigitChars 10 (if k < 26 then [] else Nat.toDigits 10 (k / 26)) 0 = k / 26 := fun k => by
      split_ifs with hk
      · simp [Nat.ofDigitChars, Nat.div_eq_of_lt hk]
      · exact Nat.ofDigitChars_ten_toDigits
    rw [← hval d, ← hval e, htail]
  omega

end Printing

namespace Reader

/-! ## Reading a name -/

/-- A letter and a number, as the printer names its binders. -/
def Generated (n : Bytes) : Prop := ∃ c cs, n = c :: cs ∧ ch 'a' ≤ c ∧ c ≤ ch 'z' ∧ ∀ x ∈ cs, isdigit x = true

/-- A name ends here. -/
def Stops (s : Bytes) : Prop := ∀ c ∈ s.head?, symChar c = false

section Steps

variable {α β : Type} {s s' : State} {tab : Tables} {rest : Bytes} {n : Bytes} {d : ℕ}

lemma bind_ok {m : RM α} {a : α} (h : m s = .ok a s') (f : α → RM β) : (m >>= f) s = f a s' := by
  change EStateM.bind m f s = _
  rw [EStateM.bind, h]

lemma sees_eq (c : Char) (s : State) : sees c s = .ok (s.rest.head? == some (ch c)) s := rfl

lemma atEnd_eq (s : State) : atEnd s = .ok (s.rest == []) s := rfl

lemma skip_eq (s : State) : skip s = .ok () { s with rest := skipws s.rest } := rfl

lemma step_eq (s : State) : step s = .ok () { s with rest := s.rest.tail } := rfl

/-- Nothing is skipped at a byte that is neither a blank nor the beginning of a comment. -/
lemma skipws_cons {c : UInt8} {cs : Bytes} (hspace : isspace c = false) (hc : c ≠ ch ';') :
    skipws (c :: cs) = c :: cs := by
  simp [skipws, skipFrom, hspace, hc]

lemma symChar_iff {c : UInt8} : symChar c = true ↔ isspace c = false ∧ c ≠ ch '(' ∧ c ≠ ch ')' := by
  simp [symChar, and_assoc]

lemma letter_facts {c : UInt8} (h : ch 'a' ≤ c) (h' : c ≤ ch 'z') :
    symChar c = true ∧ isdigit c = false ∧ c ≠ ch ';' ∧ c ≠ ch '"' ∧ c ≠ 0x5c ∧ c ≠ 0xce ∧ c ≠ ch '-' ∧ c ≠ ch '+' := by
  revert c
  decide +kernel

lemma symChar_of_isdigit {c : UInt8} (h : isdigit c = true) : symChar c = true := by
  revert c
  decide +kernel

lemma Generated.sym (h : Generated n) : ∀ c ∈ n, symChar c = true := by
  obtain ⟨c, cs, rfl, hc, hc', hcs⟩ := h
  exact List.forall_mem_cons.mpr ⟨(letter_facts hc hc').1, fun x hx => symChar_of_isdigit (hcs x hx)⟩

/-- A word whose second byte is no digit is no such name. -/
lemma Generated.ne_word (h : Generated n) {k : Bytes} (hk : k.tail.head?.map isdigit = some false) : n ≠ k := by
  rintro rfl
  obtain ⟨c, cs, rfl, -, -, hcs⟩ := h
  cases cs with
  | nil => cases hk
  | cons b cs => simp [hcs b List.mem_cons_self] at hk

lemma Generated.islambda (h : Generated n) : islambda n = false := by
  have hback : n ≠ lit "\\" := by
    obtain ⟨c, cs, rfl, hc, hc', -⟩ := h
    exact fun he => (letter_facts hc hc').2.2.2.2.1 (List.cons.inj he).1
  have h1 : n ≠ lit "lambda" := h.ne_word (by decide)
  have h2 : n ≠ lit "lam" := h.ne_word (by decide)
  have h3 : n ≠ [0xce, 0xbb] := h.ne_word (by decide)
  simp [Reader.islambda, hback, h1, h2, h3]

lemma Generated.atom (h : Generated n) : parseAtom n = .var n := by
  obtain ⟨c, cs, rfl, hc, hc', -⟩ := h
  obtain ⟨-, hdigit, -, -, -, -, hminus, hplus⟩ := letter_facts hc hc'
  simp [parseAtom, isnum, isfloat, hdigit, hminus, hplus]

/-- The reader skips nothing before a name and takes it whole. -/
lemma Generated.skipws (h : Generated n) (rest : Bytes) : skipws (n ++ rest) = n ++ rest := by
  obtain ⟨c, cs, rfl, hc, hc', -⟩ := h
  obtain ⟨hsym, -, hsemi, -⟩ := letter_facts hc hc'
  exact skipws_cons (symChar_iff.mp hsym).1 hsemi

lemma Generated.name (h : Generated n) (hrest : Stops rest) (msg : String) :
    name msg ⟨n ++ rest, tab⟩ = .ok n ⟨rest, tab⟩ := by
  have hsym : Reader.sym (n ++ rest) = some (n, rest) := by
    have htake : (n ++ rest).takeWhile symChar = n ∧ (n ++ rest).dropWhile symChar = rest := by
      rw [List.takeWhile_append_of_pos h.sym, List.dropWhile_append_of_pos h.sym]
      cases rest with
      | nil => simp
      | cons c cs => simp [hrest c rfl]
    obtain ⟨c, cs, rfl, hc, hc', -⟩ := h
    obtain ⟨-, -, -, -, hback, hlambda, -⟩ := letter_facts hc hc'
    rw [Reader.sym]
    · rw [htake.1, htake.2, if_neg (List.cons_ne_nil c cs)]
    · exact fun r he => hback (List.cons.inj he).1
    · exact fun r he => hlambda (List.cons.inj he).1
  unfold Reader.name
  rw [bind_ok (show (get : RM State) _ = _ from rfl)]
  simp only [hsym]
  rfl

/-- At a name the reader makes a variable. -/
lemma Generated.parseTerm (h : Generated n) (hrest : Stops rest) :
    parseTerm (d + 1) ⟨n ++ rest, tab⟩ = .ok (.var n) ⟨rest, tab⟩ := by
  have hskip := h.skipws rest
  have hname : Reader.name _ ⟨n ++ rest, tab⟩ = _ := h.name hrest "unexpected character"
  have hatom := h.atom
  obtain ⟨c, cs, rfl, hc, hc', -⟩ := h
  obtain ⟨hsym, -, -, hquote, -⟩ := letter_facts hc hc'
  obtain ⟨-, hopen, hclose⟩ := symChar_iff.mp hsym
  unfold Reader.parseTerm
  rw [bind_ok (skip_eq _), hskip, bind_ok (atEnd_eq _), if_neg (by simp), bind_ok (sees_eq _ _), if_neg (by simp [hclose]),
    bind_ok (sees_eq _ _), if_neg (by simp [hquote]), bind_ok (sees_eq _ _), if_neg (by simp [hopen]), bind_ok hname, hatom]
  rfl

/-- The reader starts a form at once. -/
def Begins (s : Bytes) : Prop := ∀ c ∈ s.head?, isspace c = false ∧ c ≠ ch ';' ∧ c ≠ ch ')'

/-- The text of the term `r`: the reader makes it of the text, wherever that ends. -/
def Reread (text : Bytes) (r : RTerm) : Prop :=
  ∃ d₀, ∀ d, d₀ ≤ d → ∀ rest tab, Stops rest → Reader.parseTerm d ⟨text ++ rest, tab⟩ = .ok r ⟨rest, tab⟩

lemma parseTerm_blank (s : Bytes) : Reader.parseTerm (d + 1) ⟨ch ' ' :: s, tab⟩ = Reader.parseTerm (d + 1) ⟨s, tab⟩ := by
  unfold Reader.parseTerm
  rw [bind_ok (skip_eq _), bind_ok (skip_eq _)]
  rfl

/-- An opening parenthesis and what the group is. -/
lemma parseTerm_open (hs : Begins rest) : Reader.parseTerm (d + 1) ⟨ch '(' :: rest, tab⟩ = group d ⟨rest, tab⟩ := by
  have hskip : skipws (ch '(' :: rest) = ch '(' :: rest := skipws_cons (by decide) (by decide)
  have hrest : skipws rest = rest := by
    cases rest with
    | nil => rfl
    | cons c cs => exact skipws_cons (hs c rfl).1 (hs c rfl).2.1
  unfold Reader.parseTerm
  rw [bind_ok (skip_eq _), hskip, bind_ok (atEnd_eq _), if_neg (by simp), bind_ok (sees_eq _ _),
    if_neg (by simp; decide), bind_ok (sees_eq _ _), if_neg (by simp; decide), bind_ok (sees_eq _ _),
    if_pos (by rfl), bind_ok (step_eq _), bind_ok (skip_eq _)]
  simp only [List.tail_cons, hrest]

lemma parseTail_close (f : RTerm) : parseTail (d + 1) f ⟨ch ')' :: rest, tab⟩ = .ok f ⟨rest, tab⟩ := by
  have hskip : skipws (ch ')' :: rest) = ch ')' :: rest := skipws_cons (by decide) (by decide)
  unfold parseTail
  rw [bind_ok (skip_eq _), hskip, bind_ok (sees_eq _ _), if_pos (by rfl), bind_ok (step_eq _)]
  rfl

lemma stops_close (rest : Bytes) : Stops (ch ')' :: rest) := fun c hc => by
  obtain rfl := Option.some.inj hc
  decide

lemma stops_blank (rest : Bytes) : Stops (ch ' ' :: rest) := fun c hc => by
  obtain rfl := Option.some.inj hc
  decide

end Steps

section Texts

variable {n text text' : Bytes} {r r' : RTerm}

lemma Generated.begins (h : Generated n) (rest : Bytes) : Begins (n ++ rest) := by
  obtain ⟨c, cs, rfl, hc, hc', -⟩ := h
  obtain ⟨hsym, -, hsemi, -⟩ := letter_facts hc hc'
  obtain ⟨hspace, -, hclose⟩ := symChar_iff.mp hsym
  rintro x hx
  obtain rfl := Option.some.inj hx
  exact ⟨hspace, hsemi, hclose⟩

lemma Generated.reread (h : Generated n) : Reread n (.var n) :=
  ⟨1, fun d hd rest tab hrest => by
    obtain ⟨d, rfl⟩ : ∃ k, d = k + 1 := ⟨d - 1, by omega⟩
    exact h.parseTerm hrest⟩

/-- The operand and the closing parenthesis of an application. -/
lemma Reread.parseTail (h : Reread text r) (hb : ∀ rest, Begins (text ++ rest)) (hne : text ≠ []) (f : RTerm) :
    ∃ d₀, ∀ d, d₀ ≤ d → ∀ rest tab,
      parseTail d f ⟨ch ' ' :: (text ++ ch ')' :: rest), tab⟩ = .ok (.app f r) ⟨rest, tab⟩ := by
  obtain ⟨d₀, hd₀⟩ := h
  refine ⟨d₀ + 2, fun d hd rest tab => ?_⟩
  obtain ⟨d, rfl⟩ : ∃ k, d = k + 2 := ⟨d - 2, by omega⟩
  obtain ⟨c, cs, htext⟩ := List.exists_cons_of_ne_nil hne
  obtain ⟨hspace, hsemi, hclose⟩ := hb (ch ')' :: rest) c (by simp [htext])
  have hskip : skipws (ch ' ' :: (text ++ ch ')' :: rest)) = text ++ ch ')' :: rest := by
    rw [htext]
    exact skipws_cons hspace hsemi
  unfold Reader.parseTail
  rw [bind_ok (skip_eq _), hskip, bind_ok (sees_eq _ _), if_neg (by simp [htext, hclose]), bind_ok (atEnd_eq _),
    if_neg (by simp), bind_ok (hd₀ (d + 1) (by omega) _ tab (stops_close rest)), parseTail_close]

lemma Reread.lam (h : Reread text r) (hn : Generated n) :
    Reread ([ch '(', ch '\\'] ++ n ++ [ch ' '] ++ text ++ [ch ')']) (.lam n r) := by
  obtain ⟨d₀, hd₀⟩ := h
  refine ⟨d₀ + 3, fun d hd rest tab hrest => ?_⟩
  obtain ⟨d, rfl⟩ : ∃ k, d = k + 3 := ⟨d - 3, by omega⟩
  have htext : [ch '(', ch '\\'] ++ n ++ [ch ' '] ++ text ++ [ch ')'] ++ rest =
      ch '(' :: ch '\\' :: (n ++ ch ' ' :: (text ++ ch ')' :: rest)) := by simp
  rw [htext, parseTerm_open (by rintro c hc; obtain rfl := Option.some.inj hc; decide)]
  have hname : name "empty '('" ⟨ch '\\' :: (n ++ ch ' ' :: (text ++ ch ')' :: rest)), tab⟩ =
      .ok [0x5c] ⟨n ++ ch ' ' :: (text ++ ch ')' :: rest), tab⟩ := rfl
  unfold group
  rw [bind_ok (sees_eq _ _), if_neg (by simp; decide), bind_ok hname, if_pos (by decide), bind_ok (skip_eq _), hn.skipws,
    bind_ok (hn.name (stops_blank _) _), bind_ok ((parseTerm_blank _).trans (hd₀ (d + 1) (by omega) _ tab (stops_close rest))),
    bind_ok (parseTail_close r)]
  rfl

/-- A function that is a group of its own, or a name. -/
lemma Reread.app (h : Reread text r) (h' : Reread text' r') (hb : ∀ rest, Begins (text' ++ rest)) (hne : text' ≠ [])
    (hf : (∃ cs, text = ch '(' :: cs) ∨ Generated text ∧ r = .var text) :
    Reread ([ch '('] ++ text ++ [ch ' '] ++ text' ++ [ch ')']) (.app r r') := by
  obtain ⟨d₁, hd₁⟩ := h'.parseTail hb hne r
  obtain ⟨d₀, hd₀⟩ := h
  refine ⟨d₀ + d₁ + 2, fun d hd rest tab hrest => ?_⟩
  obtain ⟨d, rfl⟩ : ∃ k, d = k + 2 := ⟨d - 2, by omega⟩
  have htext : [ch '('] ++ text ++ [ch ' '] ++ text' ++ [ch ')'] ++ rest =
      ch '(' :: (text ++ ch ' ' :: (text' ++ ch ')' :: rest)) := by simp
  rw [htext]
  rcases hf with ⟨cs, rfl⟩ | ⟨hn, rfl⟩
  · rw [parseTerm_open (by rintro c hc; obtain rfl := Option.some.inj hc; decide)]
    unfold group
    rw [bind_ok (sees_eq _ _), if_pos (by rfl), bind_ok (hd₀ d (by omega) _ tab (stops_blank _)), hd₁ d (by omega)]
  · have hopen : ∀ rest, (text ++ rest).head? ≠ some (ch '(') := fun rest he => by
      obtain ⟨c, cs, rfl, hc, hc', -⟩ := hn
      exact (symChar_iff.mp (letter_facts hc hc').1).2.1 (Option.some.inj he)
    have hkey : ∀ w : String, (lit w).tail.head?.map isdigit = some false → text ≠ lit w := fun _ => hn.ne_word
    rw [parseTerm_open (hn.begins _)]
    unfold group
    rw [bind_ok (sees_eq _ _), if_neg (fun he => hopen _ (eq_of_beq he)),
      bind_ok (hn.name (stops_blank _) _), if_neg (by simp [hn.islambda]), if_neg (hkey "define" (by decide)),
      if_neg (hkey "define!" (by decide)), if_neg (hkey "load" (by decide)),
      if_neg (not_or.mpr ⟨hkey "namespace" (by decide), not_or.mpr ⟨hkey "ns" (by decide), hkey "module" (by decide)⟩⟩),
      if_neg (not_or.mpr ⟨hkey "open" (by decide), hkey "use" (by decide)⟩), if_neg (hkey "export" (by decide)),
      if_neg (hkey "match" (by decide)), if_neg (not_or.mpr ⟨hkey "datatype" (by decide), hkey "data" (by decide)⟩),
      if_neg (hkey "let" (by decide)), hn.atom, hd₁ d (by omega)]

end Texts

/-! ## The text of a term -/

/-- The nameless form of a pure term. -/
def RTerm.toTm : List Bytes → RTerm → Tm Empty
  | Γ, .var x => .var (Γ.idxOf x)
  | Γ, .lam x b => .lam (toTm (x :: Γ) b)
  | Γ, .app f a => .app (toTm Γ f) (toTm Γ a)
  | _, _ => .var 0

/-- The name of the binder that has `d` others around it. -/
def binderBytes (d : ℕ) : Bytes := (Printing.binderName d).map ch

/-- A nameless term in the scope of `d` binders, with names from the printer. -/
def named : ℕ → Tm Empty → RTerm
  | d, .var i => .var (binderBytes (d - 1 - i))
  | _, .const k => k.elim
  | d, .lam b => .lam (binderBytes d) (named (d + 1) b)
  | d, .app f a => .app (named d f) (named d a)

end Reader

namespace Printing

/-- What the printer writes for a nameless term in the scope of `d` binders. -/
def spell : ℕ → Tm Empty → List Char
  | d, .var i => binderName (d - 1 - i)
  | _, .const k => k.elim
  | d, .lam b => ['(', '\\'] ++ binderName d ++ [' '] ++ spell (d + 1) b ++ [')']
  | d, .app f a => ['('] ++ spell d f ++ [' '] ++ spell d a ++ [')']

end Printing

/-- No index leads out of `d` binders. -/
def Lambda.Tm.Under {κ : Type} : ℕ → Tm κ → Prop
  | d, .var i => i < d
  | _, .const _ => True
  | d, .lam b => Under (d + 1) b
  | d, .app f a => Under d f ∧ Under d a

namespace Reader

section Spelling

open Printing

variable {d : ℕ} {t : Tm Empty}

lemma isdigit_ch {c : Char} (h : c.isDigit = true) : isdigit (ch c) = true ∧ c.toNat < 256 := by
  obtain ⟨h₁, h₂⟩ : 48 ≤ c.toNat ∧ c.toNat ≤ 57 := by
    rw [Char.isDigit, Bool.and_eq_true, decide_eq_true_eq, decide_eq_true_eq] at h
    exact ⟨UInt32.le_iff_toNat_le.mp h.1, UInt32.le_iff_toNat_le.mp h.2⟩
  unfold ch
  generalize c.toNat = k at h₁ h₂ ⊢
  interval_cases k <;> decide

lemma letter_ch (d : ℕ) : (ch 'a' ≤ ch (Char.ofNat (97 + d % 26)) ∧ ch (Char.ofNat (97 + d % 26)) ≤ ch 'z') ∧
    (Char.ofNat (97 + d % 26)).toNat < 256 := by
  have hd : d % 26 < 26 := Nat.mod_lt d (by omega)
  generalize d % 26 = k at hd ⊢
  interval_cases k <;> decide

lemma binderName_digits {d : ℕ} {c : Char} (hc : c ∈ (binderName d).tail) : c.isDigit = true := by
  unfold binderName at hc
  rw [List.tail_cons] at hc
  split_ifs at hc
  · exact absurd hc List.not_mem_nil
  · exact Nat.isDigit_of_mem_toDigits (by omega) (by omega) hc

lemma binderBytes_generated (d : ℕ) : Generated (binderBytes d) := by
  refine ⟨_, _, rfl, (letter_ch d).1.1, (letter_ch d).1.2, fun x hx => ?_⟩
  obtain ⟨c, hc, rfl⟩ := List.mem_map.mp hx
  exact (isdigit_ch (binderName_digits (d := d) hc)).1

lemma binderBytes_injective : Function.Injective binderBytes := by
  -- the characters are those of one byte
  have hback : ∀ c : Char, c.toNat < 256 → Char.ofNat (ch c).toNat = c := fun c hc => by
    rw [ch, Nat.toUInt8_eq, UInt8.toNat_ofNat', Nat.mod_eq_of_lt hc, Char.ofNat_toNat]
  have hsmall : ∀ d, ∀ c ∈ binderName d, c.toNat < 256 := fun d c hc => by
    rcases List.mem_cons.mp hc with rfl | hc
    · exact (letter_ch d).2
    · exact (isdigit_ch (binderName_digits (d := d) hc)).2
  have hname : ∀ d, (binderBytes d).map (fun b => Char.ofNat b.toNat) = binderName d := fun d => by
    rw [binderBytes, List.map_map]
    exact (List.map_congr_left fun c hc => hback c (hsmall d c hc)).trans (List.map_id _)
  exact fun d e h => binderName_injective ((hname d).symm.trans ((congrArg _ h).trans (hname e)))

/-- The names of `d` binders, the innermost first. -/
def scopeBytes (d : ℕ) : List Bytes := (List.range d).reverse.map binderBytes

lemma scopeBytes_succ (d : ℕ) : scopeBytes (d + 1) = binderBytes d :: scopeBytes d := by
  simp [scopeBytes, List.range_succ]

lemma scopeBytes_idxOf {i : ℕ} (hi : i < d) : (scopeBytes d).idxOf (binderBytes (d - 1 - i)) = i := by
  induction d generalizing i with
  | zero => omega
  | succ d ih =>
    rw [scopeBytes_succ]
    cases i with
    | zero => simp
    | succ i =>
      have hne : binderBytes d ≠ binderBytes (d + 1 - 1 - (i + 1)) := fun he => by
        have := binderBytes_injective he
        omega
      rw [List.idxOf_cons_ne _ hne, show d + 1 - 1 - (i + 1) = d - 1 - i by omega, ih (by omega)]

/-- The names stand for the indices. -/
lemma named_toTm (h : t.Under d) : (named d t).toTm (scopeBytes d) = t := by
  induction t generalizing d with
  | var i => exact congrArg Tm.var (scopeBytes_idxOf h)
  | const k => exact k.elim
  | lam b ih =>
    rw [named, RTerm.toTm, ← scopeBytes_succ, ih h]
  | app f a ihf iha => rw [named, RTerm.toTm, ihf h.1, iha h.2]

/-- A text is a name or a group. -/
lemma spell_head (h : t.Under d) : (∃ cs, (spell d t).map ch = ch '(' :: cs) ∨
    Generated ((spell d t).map ch) ∧ named d t = .var ((spell d t).map ch) := by
  cases t with
  | var i => exact .inr ⟨binderBytes_generated _, rfl⟩
  | const k => exact k.elim
  | lam b => exact .inl ⟨_, rfl⟩
  | app f a => exact .inl ⟨_, rfl⟩

lemma spell_begins (h : t.Under d) :
    (∀ rest, Begins ((spell d t).map ch ++ rest)) ∧ (spell d t).map ch ≠ [] := by
  rcases spell_head h with ⟨cs, he⟩ | ⟨hn, -⟩
  · rw [he]
    refine ⟨fun rest c hc => ?_, List.cons_ne_nil _ _⟩
    obtain rfl := Option.some.inj hc
    decide
  · have hbegins := hn.begins
    obtain ⟨c, cs, he, -⟩ := hn
    exact ⟨hbegins, he ▸ List.cons_ne_nil c cs⟩

/-- The reader makes the term of its text. -/
theorem spell_reread (h : t.Under d) : Reread ((spell d t).map ch) (named d t) := by
  induction t generalizing d with
  | var i => exact (binderBytes_generated _).reread
  | const k => exact k.elim
  | lam b ih =>
    have hlam := (ih h).lam (binderBytes_generated d)
    simpa [spell, named, binderBytes] using hlam
  | app f a ihf iha =>
    obtain ⟨hb, hne⟩ := spell_begins h.2
    have happ := (ihf h.1).app (iha h.2) hb hne (spell_head h.1)
    simpa [spell, named] using happ

/-- A text of one form is delivered as that form. -/
lemma Reread.forms {σ : Type} {text : Bytes} {r : RTerm} (h : Reread text r) (hb : ∀ rest, Begins (text ++ rest))
    (hne : text ≠ []) (fn : FormFn σ) (ud : σ) (tab : Tables) :
    ∃ d₀, ∀ d, d₀ ≤ d → parseForms fn d ud tab text = some ([.ok r], fn (.ok r) ud tab) := by
  obtain ⟨d₀, hd₀⟩ := h
  refine ⟨d₀ + 2, fun d hd => ?_⟩
  obtain ⟨k, rfl⟩ : ∃ k, d = k + 2 := ⟨d - 2, by omega⟩
  have hskip : skipws text = text := by
    obtain ⟨c, cs, rfl⟩ := List.exists_cons_of_ne_nil hne
    obtain ⟨hspace, hsemi, -⟩ := hb [] c rfl
    exact skipws_cons hspace hsemi
  have hrun : Reader.parseTerm (k + 2) ⟨text, tab⟩ = .ok r ⟨[], tab⟩ := by
    have := hd₀ (k + 2) (by omega) [] tab (fun c hc => by cases hc)
    rwa [List.append_nil] at this
  have hread : readForm (k + 2) ⟨text, tab⟩ = some (.ok r, ⟨[], tab⟩) := by
    rw [readForm, hrun]
  have hend : ∀ ud tab, formsLoop fn (k + 2) (k + 1) ud ⟨[], tab⟩ = some ([], ud, tab) := fun _ _ => rfl
  unfold parseForms formsLoop
  simp [hskip, hne, hread, hend]

end Spelling

end Reader

end LinEngine
