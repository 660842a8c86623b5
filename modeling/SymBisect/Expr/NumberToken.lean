import Mathlib

/-!
# Number tokens

`Lexer::LexNumber` of `lib/Expr/Lexer.cpp` and `ParserImpl::ParseNumberToken` of `lib/Expr/Parser.cpp`: the constant of a
number token at a width.  The value is accumulated at a width that follows from the number of digits, negated there, and
then brought to the width that is asked for.

* `digitLoop_ok`: the value that is accumulated.
* `Lex_spec`: the number tokens.
* `numberRight_iff`: the tokens that are read right.
-/

namespace SymBisect.ParserImpl

/-! ### The lexer -/

/-- A token: the buffer from its first character on, and its length, an `unsigned`. -/
structure Token where
  start : List Char
  length : ℕ

/-- `isalnum(c) || c == '_'`. -/
def isNumberChar (c : Char) : Bool := c.isAlphanum || c == '_'

/-- `isspace(c)`. -/
def isspace (c : Char) : Bool := c == ' ' || (9 ≤ c.toNat && c.toNat ≤ 13)

/-- `LexNumber` and `SetTokenKind`, behind the first character. -/
def LexNumber (buffer : List Char) : Token := ⟨buffer, (1 + (buffer.tail.takeWhile isNumberChar).length) % 2 ^ 32⟩

/-- `Lex`, if the token is a number. -/
def Lex (buffer : List Char) : Option Token :=
  match buffer.dropWhile isspace with
  | [] => none
  | c :: rest =>
    if c = '+' ∨ c = '-' then if rest.head?.any Char.isDigit then some (LexNumber (c :: rest)) else none
    else if c.isDigit then some (LexNumber (c :: rest))
    else none

/-! ### The parser -/

/-- `ExprResult`, with the message if there was an error. -/
structure ExprResult (w : ℕ) where
  error : Option String
  value : BitVec w
  deriving DecidableEq

/-- A character of the buffer, which ends with a null. -/
def charAt (S : List Char) (i : ℕ) : Char := S.getD i (Char.ofNat 0)

/-- `Digit`; nothing for another character. -/
def digit (c : Char) : Option ℕ :=
  if '0' ≤ c ∧ c ≤ '9' then some (c.toNat - '0'.toNat)
  else if 'a' ≤ c ∧ c ≤ 'z' then some (c.toNat - 'a'.toNat + 10)
  else if 'A' ≤ c ∧ c ≤ 'Z' then some (c.toNat - 'A'.toNat + 10)
  else none

/-- The loop over the digits. -/
def digitLoop {b : ℕ} (radix : ℕ) (val : BitVec b) : List Char → Except String (BitVec b)
  | [] => .ok val
  | c :: cs =>
    if c = '_' then digitLoop radix val cs
    else
      match digit c with
      | none => .error "invalid character in numeric token."
      | some d =>
        if radix ≤ d then .error "invalid character in numeric token (out of range)."
        else digitLoop radix (val * BitVec.ofNat b radix + BitVec.ofNat b d) cs

/-- The result for the accumulated value: it is negated, and truncated or zero-extended. -/
def resultOf {b : ℕ} (w : ℕ) (hasMinus : Bool) : Except String (BitVec b) → ExprResult w
  | .error message => ⟨some message, 0⟩
  | .ok val => ⟨none, (if hasMinus then -val else val).setWidth w⟩

/-- The digits of a number with `radix`, each of `radixBits` bits, and its value at width `w`.  `APInt` has at least one bit;
the number of bits is an `unsigned`. -/
def parseDigits (w : ℕ) (hasMinus : Bool) (radix radixBits : ℕ) (digits : List Char) : Option (ExprResult w) :=
  let b := radixBits * digits.length % 2 ^ 32
  if b = 0 then none else some (resultOf w hasMinus (digitLoop radix (0 : BitVec b) digits))

/-- `ParseNumberToken` behind the sign: `N` characters of the token are left. -/
def parseUnsigned (w : ℕ) (hasMinus : Bool) (length : ℕ) (S : List Char) (N : ℕ) : Option (ExprResult w) :=
  if 2 ≤ length ∧ charAt S 0 = '0' ∧ (charAt S 1 = 'b' ∨ charAt S 1 = 'o' ∨ charAt S 1 = 'x') then
    if N - 2 = 0 then some ⟨some "invalid numeric token (no digits).", 0⟩
    else if charAt S 1 = 'b' then parseDigits w hasMinus 2 1 ((S.drop 2).take (N - 2))
    else if charAt S 1 = 'o' then parseDigits w hasMinus 8 3 ((S.drop 2).take (N - 2))
    else parseDigits w hasMinus 16 4 ((S.drop 2).take (N - 2))
  else parseDigits w hasMinus 10 4 (S.take N)

/-- `ParseNumberToken`. -/
def ParseNumberToken (w : ℕ) (Tok : Token) : Option (ExprResult w) :=
  if charAt Tok.start 0 = '+' then parseUnsigned w false Tok.length (Tok.start.drop 1) (Tok.length - 1)
  else if charAt Tok.start 0 = '-' then parseUnsigned w true Tok.length (Tok.start.drop 1) (Tok.length - 1)
  else parseUnsigned w false Tok.length Tok.start Tok.length

/-! ### What is asked of it -/

/-- A number: its sign, its radix with the number of bits of a digit, and the characters of its digits. -/
structure Numeral where
  minus : Bool
  radix : ℕ
  radixBits : ℕ
  digits : List Char
  deriving DecidableEq

/-- An unsigned number. -/
def unsignedNumeral (minus : Bool) (text : List Char) : Numeral :=
  if "0b".toList <+: text then ⟨minus, 2, 1, text.drop 2⟩
  else if "0o".toList <+: text then ⟨minus, 8, 3, text.drop 2⟩
  else if "0x".toList <+: text then ⟨minus, 16, 4, text.drop 2⟩
  else ⟨minus, 10, 4, text⟩

/-- The number of a token. -/
def Token.numeral (t : Token) : Numeral :=
  let text := t.start.take t.length
  if charAt text 0 = '+' then unsignedNumeral false (text.drop 1)
  else if charAt text 0 = '-' then unsignedNumeral true (text.drop 1)
  else unsignedNumeral false text

namespace Numeral

/-- There is a digit. -/
def HasDigit (n : Numeral) : Prop := ∃ c ∈ n.digits, c ≠ '_'

/-- A digit is outside the radix. -/
def OutsideRadix (n : Numeral) : Prop := ∃ c ∈ n.digits, c ≠ '_' ∧ ∀ d, digit c = some d → n.radix ≤ d

/-- The value of the digits. -/
def magnitude (n : Numeral) : ℕ :=
  ((n.digits.filter fun c => c ≠ '_').filterMap digit).foldl (fun v d => v * n.radix + d) 0

/-- The signed value. -/
def value (n : Numeral) : ℤ := if n.minus then -n.magnitude else n.magnitude

/-- The bits at which the value is accumulated. -/
def bits (n : Numeral) : ℕ := n.radixBits * n.digits.length % 2 ^ 32

instance (n : Numeral) : Decidable n.HasDigit := inferInstanceAs (Decidable (∃ c ∈ n.digits, c ≠ '_'))

end Numeral

/-- An error is reported exactly when a digit is outside the radix or there are no digits; else the constant has the value
of the token. -/
structure NumberRight (w : ℕ) (t : Token) : Prop where
  error : (∃ r message, ParseNumberToken w t = some r ∧ r.error = some message) ↔
    t.numeral.OutsideRadix ∨ ¬t.numeral.HasDigit
  value : ¬t.numeral.OutsideRadix → t.numeral.HasDigit →
    ParseNumberToken w t = some ⟨none, BitVec.ofInt w t.numeral.value⟩

/-! ### The digits -/

variable {w : ℕ} {t : Token}

/-- The loop over digits of the radix. -/
theorem digitLoop_ok (b radix : ℕ) {cs : List Char} (h : ∀ c ∈ cs, c ≠ '_' → ∃ d, digit c = some d ∧ d < radix) (m : ℕ) :
    digitLoop radix (BitVec.ofNat b m) cs = .ok (BitVec.ofNat b
      (((cs.filter fun c => c ≠ '_').filterMap digit).foldl (fun v d => v * radix + d) m)) := by
  induction cs generalizing m with
  | nil => rfl
  | cons c cs ih =>
    have ih := ih fun c' hc' => h c' (List.mem_cons_of_mem c hc')
    rw [digitLoop]
    by_cases hc : c = '_'
    · rw [if_pos hc, List.filter_cons_of_neg (by simpa using hc)]
      exact ih m
    · obtain ⟨d, hd, hlt⟩ := h c List.mem_cons_self hc
      rw [if_neg hc, List.filter_cons_of_pos (by simpa using hc), List.filterMap_cons_some hd, List.foldl_cons, hd]
      show (if radix ≤ d then _ else _) = _
      rw [if_neg (not_le.2 hlt), ← BitVec.ofNat_mul, ← BitVec.ofNat_add]
      exact ih (m * radix + d)

/-- The loop stops at a digit that is outside the radix. -/
theorem digitLoop_error {b radix : ℕ} {cs : List Char}
    (h : ∃ c ∈ cs, c ≠ '_' ∧ ∀ d, digit c = some d → radix ≤ d) (val : BitVec b) :
    ∃ message, digitLoop radix val cs = .error message := by
  induction cs generalizing val with
  | nil =>
    obtain ⟨c, hc, -⟩ := h
    exact absurd hc List.not_mem_nil
  | cons c cs ih =>
    rw [digitLoop]
    have hrest : (c ≠ '_' → ∃ d, digit c = some d ∧ d < radix) →
        ∃ c ∈ cs, c ≠ '_' ∧ ∀ d, digit c = some d → radix ≤ d := by
      intro hgood
      obtain ⟨c', hc', hne, hout⟩ := h
      cases List.mem_cons.1 hc' with
      | inl heq =>
        subst heq
        obtain ⟨d, hd, hlt⟩ := hgood hne
        exact absurd (hout d hd) (not_le.2 hlt)
      | inr hmem => exact ⟨c', hmem, hne, hout⟩
    by_cases hc : c = '_'
    · rw [if_pos hc]
      exact ih (hrest fun hne => absurd hc hne) val
    · rw [if_neg hc]
      cases hd : digit c with
      | none => exact ⟨_, rfl⟩
      | some d =>
        show ∃ message, (if radix ≤ d then _ else _) = _
        by_cases hlt : radix ≤ d
        · rw [if_pos hlt]
          exact ⟨_, rfl⟩
        · rw [if_neg hlt]
          exact ih (hrest fun _ => ⟨d, hd, not_le.1 hlt⟩) _

/-- Bringing a value to another width. -/
theorem setWidth_ofInt_iff (b w : ℕ) (v : ℤ) :
    (BitVec.ofInt b v).setWidth w = BitVec.ofInt w v ↔ w ≤ b ∨ v % 2 ^ w < 2 ^ b := by
  have hb : (0 : ℤ) < 2 ^ b := by positivity
  have hw : (0 : ℤ) < 2 ^ w := by positivity
  have hvb : 0 ≤ v % 2 ^ b := Int.emod_nonneg v hb.ne'
  have hvw : 0 ≤ v % 2 ^ w := Int.emod_nonneg v hw.ne'
  have heq : (BitVec.ofInt b v).setWidth w = BitVec.ofInt w v ↔ v % 2 ^ b % 2 ^ w = v % 2 ^ w := by
    rw [← BitVec.toNat_inj, BitVec.toNat_setWidth, BitVec.toNat_ofInt, BitVec.toNat_ofInt, ← Int.natCast_inj]
    push_cast
    rw [Int.toNat_of_nonneg hvb, Int.toNat_of_nonneg hvw]
  rw [heq]
  by_cases hle : w ≤ b
  · refine ⟨fun _ => .inl hle, fun _ => ?_⟩
    exact Int.emod_emod_of_dvd v (pow_dvd_pow 2 hle)
  · have hpow : (2 : ℤ) ^ b ≤ 2 ^ w := pow_le_pow_right₀ (by norm_num) (not_le.1 hle).le
    rw [Int.emod_eq_of_lt hvb ((Int.emod_lt_of_pos v hb).trans_le hpow)]
    constructor
    · intro h
      right
      rw [← h]
      exact Int.emod_lt_of_pos v hb
    · intro h
      have hlt : v % 2 ^ w < 2 ^ b := h.resolve_left hle
      calc v % 2 ^ b = v % 2 ^ w % 2 ^ b := (Int.emod_emod_of_dvd v (pow_dvd_pow 2 (not_le.1 hle).le)).symm
        _ = v % 2 ^ w := Int.emod_eq_of_lt hvw hlt

theorem ofInt_value (b : ℕ) (n : Numeral) : (if n.minus then -BitVec.ofNat b n.magnitude else BitVec.ofNat b n.magnitude) =
    BitVec.ofInt b n.value := by
  unfold Numeral.value
  split
  · rw [BitVec.ofInt_neg, BitVec.ofInt_natCast]
  · rw [BitVec.ofInt_natCast]

/-! ### The tokens -/

/-- A number token: an optional sign, a digit, and the number characters that follow. -/
structure Lexed (t : Token) (sign : List Char) (d : Char) (cs rest : List Char) : Prop where
  start : t.start = sign ++ d :: (cs ++ rest)
  length : t.length = sign.length + (cs.length + 1)
  sign : sign = [] ∨ sign = ['+'] ∨ sign = ['-']
  isDigit : d.isDigit = true
  rest : ∀ c, rest.head? = some c → isNumberChar c = false

theorem isNumberChar_of_isDigit {c : Char} (h : c.isDigit = true) : isNumberChar c = true := by
  unfold isNumberChar Char.isAlphanum
  rw [h, Bool.or_true, Bool.true_or]

theorem head?_dropWhile_isNumberChar {l : List Char} {c : Char} (h : (l.dropWhile isNumberChar).head? = some c) :
    isNumberChar c = false := by
  have hnot := List.head?_dropWhile_not isNumberChar l
  rw [h] at hnot
  simpa using hnot

/-- What the lexer takes for a number. -/
theorem Lex_spec {buffer : List Char} (hlen : buffer.length < 2 ^ 32) (h : Lex buffer = some t) :
    ∃ sign d cs rest, Lexed t sign d cs rest := by
  have hsub : (buffer.dropWhile isspace).length ≤ buffer.length := (List.dropWhile_sublist _).length_le
  unfold Lex at h
  split at h
  · cases h
  · rename_i c rest hbuffer
    rw [hbuffer, List.length_cons] at hsub
    have htake : (rest.takeWhile isNumberChar).length ≤ rest.length := (List.takeWhile_sublist _).length_le
    have hmod : (1 + (rest.takeWhile isNumberChar).length) % 2 ^ 32 = 1 + (rest.takeWhile isNumberChar).length :=
      Nat.mod_eq_of_lt (by omega)
    by_cases hsign : c = '+' ∨ c = '-'
    · rw [if_pos hsign] at h
      split at h
      · rename_i hdigit
        cases h
        cases rest with
        | nil => cases hdigit
        | cons d rest =>
          have hnumber : isNumberChar d = true := isNumberChar_of_isDigit hdigit
          refine ⟨[c], d, rest.takeWhile isNumberChar, rest.dropWhile isNumberChar, ⟨?_, ?_, ?_, hdigit, ?_⟩⟩
          · rw [List.takeWhile_append_dropWhile]
            rfl
          · show (1 + ((d :: rest).takeWhile isNumberChar).length) % 2 ^ 32 = _
            rw [hmod, List.takeWhile_cons_of_pos hnumber]
            rfl
          · exact .inr (hsign.imp (fun h => by rw [h]) fun h => by rw [h])
          · intro c' hc'
            exact head?_dropWhile_isNumberChar hc'
      · cases h
    · rw [if_neg hsign] at h
      split at h
      · rename_i hdigit
        cases h
        refine ⟨[], c, rest.takeWhile isNumberChar, rest.dropWhile isNumberChar, ⟨?_, ?_, .inl rfl, hdigit, ?_⟩⟩
        · rw [List.takeWhile_append_dropWhile]
          rfl
        · show (1 + (rest.takeWhile isNumberChar).length) % 2 ^ 32 = _
          rw [hmod, List.length_nil, Nat.zero_add, Nat.add_comm]
        · intro c' hc'
          exact head?_dropWhile_isNumberChar hc'
      · cases h

/-- The result for a number. -/
def parseNumeral (w : ℕ) (n : Numeral) : Option (ExprResult w) :=
  if n.digits = [] then some ⟨some "invalid numeric token (no digits).", 0⟩
  else parseDigits w n.minus n.radix n.radixBits n.digits

theorem prefix_iff (a b d c : Char) (cs : List Char) : [a, b] <+: d :: c :: cs ↔ d = a ∧ c = b := by
  rw [List.cons_prefix_cons, List.cons_prefix_cons, eq_comm, eq_comm (a := b)]
  exact and_congr_right fun _ => and_iff_left List.nil_prefix

theorem unsignedNumeral_singleton (minus : Bool) (d : Char) : unsignedNumeral minus [d] = ⟨minus, 10, 4, [d]⟩ := by
  have hno : ∀ a b : Char, ¬[a, b] <+: [d] := by
    intro a b h
    have hle := h.length_le
    simp at hle
  exact (if_neg (hno '0' 'b')).trans ((if_neg (hno '0' 'o')).trans (if_neg (hno '0' 'x')))

theorem unsignedNumeral_cons (minus : Bool) (d c : Char) (cs : List Char) : unsignedNumeral minus (d :: c :: cs) =
    if d = '0' ∧ c = 'b' then ⟨minus, 2, 1, cs⟩
    else if d = '0' ∧ c = 'o' then ⟨minus, 8, 3, cs⟩
    else if d = '0' ∧ c = 'x' then ⟨minus, 16, 4, cs⟩
    else ⟨minus, 10, 4, d :: c :: cs⟩ := by
  have hb : "0b".toList <+: d :: c :: cs ↔ d = '0' ∧ c = 'b' := prefix_iff '0' 'b' d c cs
  have ho : "0o".toList <+: d :: c :: cs ↔ d = '0' ∧ c = 'o' := prefix_iff '0' 'o' d c cs
  have hx : "0x".toList <+: d :: c :: cs ↔ d = '0' ∧ c = 'x' := prefix_iff '0' 'x' d c cs
  unfold unsignedNumeral
  simp only [hb, ho, hx]
  rfl

/-- What is read behind the sign; the character behind the token is not taken for one of its own. -/
theorem parseUnsigned_eq (minus : Bool) (d : Char) (cs rest : List Char) (L : ℕ) (hL : cs ≠ [] → 2 ≤ L)
    (hrest : ∀ c, rest.head? = some c → isNumberChar c = false) :
    parseUnsigned w minus L (d :: (cs ++ rest)) (cs.length + 1) = parseNumeral w (unsignedNumeral minus (d :: cs)) := by
  have htake : (d :: (cs ++ rest)).take (cs.length + 1) = d :: cs := by
    rw [List.take_succ_cons, List.take_left]
  unfold parseUnsigned
  rw [htake]
  cases cs with
  | nil =>
    have hnext : ∀ c, isNumberChar c = true → charAt (d :: ([] ++ rest)) 1 ≠ c := by
      intro c hc hat
      cases rest with
      | nil =>
        have hnull : isNumberChar (Char.ofNat 0) = false := by decide
        rw [show c = Char.ofNat 0 from hat.symm, hnull] at hc
        cases hc
      | cons c' rest =>
        have hc' := hrest c' rfl
        rw [show c' = c from hat, hc] at hc'
        cases hc'
    rw [if_neg, unsignedNumeral_singleton]
    · rfl
    · rintro ⟨-, -, h | h | h⟩
      · exact hnext 'b' rfl h
      · exact hnext 'o' rfl h
      · exact hnext 'x' rfl h
  | cons c cs =>
    have hL := hL (List.cons_ne_nil c cs)
    have hdigits : ((d :: (c :: cs ++ rest)).drop 2).take ((c :: cs).length + 1 - 2) = cs := List.take_left
    have hempty : (c :: cs).length + 1 - 2 = 0 ↔ cs = [] := by
      rw [← List.length_eq_zero_iff, List.length_cons]
      omega
    have hfirst : charAt (d :: (c :: cs ++ rest)) 0 = d := rfl
    have hsecond : charAt (d :: (c :: cs ++ rest)) 1 = c := rfl
    rw [hdigits, unsignedNumeral_cons, hfirst, hsecond]
    simp only [hempty, hL, true_and]
    unfold parseNumeral
    by_cases hd : d = '0'
    · by_cases hb : c = 'b'
      · simp [hd, hb]
      · by_cases ho : c = 'o'
        · simp [hd, ho]
        · by_cases hx : c = 'x'
          · simp [hd, hx]
          · simp [hd, hb, ho, hx]
    · simp [hd]

theorem sign_not_digit {d : Char} (h : d.isDigit = true) : d ≠ '+' ∧ d ≠ '-' := by
  refine ⟨?_, ?_⟩
  · rintro rfl
    exact absurd h (by decide)
  · rintro rfl
    exact absurd h (by decide)

/-- A number token is read as its number. -/
theorem ParseNumberToken_eq {sign cs rest : List Char} {d : Char} (h : Lexed t sign d cs rest) :
    ParseNumberToken w t = parseNumeral w t.numeral := by
  obtain ⟨start, length⟩ := t
  obtain ⟨hstart, hlength, hsign, hdigit, hrest⟩ := h
  simp only at hstart hlength
  subst hstart hlength
  obtain ⟨hplus, hminus⟩ := sign_not_digit hdigit
  have htake : (d :: (cs ++ rest)).take (cs.length + 1) = d :: cs := by
    rw [List.take_succ_cons, List.take_left]
  have hlong : cs ≠ [] → 2 ≤ cs.length + 1 := by
    intro hne
    have := List.length_pos_of_ne_nil hne
    omega
  obtain rfl | rfl | rfl := hsign
  · simp only [ParseNumberToken, Token.numeral, charAt, List.nil_append, List.length_nil, Nat.zero_add, htake,
      List.getD_cons_zero, hplus, hminus, if_false]
    exact parseUnsigned_eq false d cs rest _ hlong hrest
  · simp only [ParseNumberToken, Token.numeral, charAt, List.cons_append, List.nil_append, List.length_singleton,
      Nat.add_comm 1, List.take_succ_cons, htake, List.getD_cons_zero, if_true, List.drop_one, List.tail_cons,
      Nat.add_sub_cancel]
    exact parseUnsigned_eq false d cs rest _ (fun _ => by omega) hrest
  · simp only [ParseNumberToken, Token.numeral, charAt, List.cons_append, List.nil_append, List.length_singleton,
      Nat.add_comm 1, List.take_succ_cons, htake, List.getD_cons_zero, if_true, List.drop_one, List.tail_cons,
      Nat.add_sub_cancel, show ('-' = '+') = False from by decide, if_false]
    exact parseUnsigned_eq true d cs rest _ (fun _ => by omega) hrest

/-- The digits of the radix are read at the width that their number gives. -/
theorem parseDigits_of_inside {n : Numeral} (hbits : n.bits ≠ 0) (h : ¬n.OutsideRadix) :
    parseDigits w n.minus n.radix n.radixBits n.digits = some ⟨none, (BitVec.ofInt n.bits n.value).setWidth w⟩ := by
  have hinside : ∀ c ∈ n.digits, c ≠ '_' → ∃ d, digit c = some d ∧ d < n.radix := by
    intro c hc hne
    by_contra hno
    exact h ⟨c, hc, hne, fun d hd => not_lt.1 fun hlt => hno ⟨d, hd, hlt⟩⟩
  have hloop := digitLoop_ok n.bits n.radix hinside 0
  show (if n.bits = 0 then none else some (resultOf w n.minus (digitLoop n.radix (BitVec.ofNat n.bits 0) n.digits))) = _
  rw [if_neg hbits, hloop, ← ofInt_value]
  rfl

theorem parseDigits_of_outside {n : Numeral} (hbits : n.bits ≠ 0) (h : n.OutsideRadix) :
    ∃ message, parseDigits w n.minus n.radix n.radixBits n.digits = some ⟨some message, 0⟩ := by
  obtain ⟨message, hloop⟩ := digitLoop_error h (0 : BitVec n.bits)
  refine ⟨message, ?_⟩
  show (if n.bits = 0 then none else some (resultOf w n.minus (digitLoop n.radix (0 : BitVec n.bits) n.digits))) = _
  rw [if_neg hbits, hloop]
  rfl

/-- **The tokens that are read right.**  A prefix without a character behind it is an error.  Else the value is accumulated
at a width that must not be zero: a digit outside the radix is an error; and the value is the one of the token if there is a
digit and the width that is asked for is not larger, or the value fits without its sign. -/
theorem numberRight_iff {buffer : List Char} (hlen : buffer.length < 2 ^ 32) (hlex : Lex buffer = some t) (w : ℕ) :
    NumberRight w t ↔ t.numeral.digits = [] ∨ t.numeral.bits ≠ 0 ∧ (t.numeral.OutsideRadix ∨
      t.numeral.HasDigit ∧ (w ≤ t.numeral.bits ∨ t.numeral.value % 2 ^ w < 2 ^ t.numeral.bits)) := by
  obtain ⟨sign, d, cs, rest, hlexed⟩ := Lex_spec hlen hlex
  have heq : ParseNumberToken w t = parseNumeral w t.numeral := ParseNumberToken_eq hlexed
  by_cases hempty : t.numeral.digits = []
  · have hno : ¬t.numeral.HasDigit := by
      rintro ⟨c, hc, -⟩
      rw [hempty] at hc
      exact List.not_mem_nil hc
    refine ⟨fun _ => .inl hempty, fun _ => ⟨⟨fun _ => .inr hno, fun _ => ?_⟩, fun _ hdigit => absurd hdigit hno⟩⟩
    rw [heq, parseNumeral, if_pos hempty]
    exact ⟨_, _, rfl, rfl⟩
  · rw [parseNumeral, if_neg hempty] at heq
    rw [or_iff_right hempty]
    by_cases hbits : t.numeral.bits = 0
    · have hnone : ParseNumberToken w t = none := by
        rw [heq]
        exact if_pos hbits
      refine ⟨fun h => ?_, fun h => absurd hbits h.1⟩
      by_cases hbad : t.numeral.OutsideRadix ∨ ¬t.numeral.HasDigit
      · obtain ⟨r, message, hr, -⟩ := h.error.2 hbad
        rw [hnone] at hr
        cases hr
      · rw [not_or, not_not] at hbad
        have hvalue := h.value hbad.1 hbad.2
        rw [hnone] at hvalue
        cases hvalue
    · rw [and_iff_right hbits]
      by_cases hout : t.numeral.OutsideRadix
      · obtain ⟨message, hmessage⟩ := parseDigits_of_outside (w := w) hbits hout
        refine ⟨fun _ => .inl hout, fun _ => ⟨⟨fun _ => .inl hout, fun _ => ?_⟩, fun hin => absurd hout hin⟩⟩
        exact ⟨_, message, heq.trans hmessage, rfl⟩
      · have hresult := heq.trans (parseDigits_of_inside hbits hout)
        have hnoerror : ¬∃ r message, ParseNumberToken w t = some r ∧ r.error = some message := by
          rintro ⟨r, message, hr, hmessage⟩
          rw [hresult] at hr
          cases hr
          cases hmessage
        rw [or_iff_right hout, ← setWidth_ofInt_iff]
        constructor
        · intro h
          have hdigit : t.numeral.HasDigit := by
            by_contra hno
            exact hnoerror (h.error.2 (.inr hno))
          refine ⟨hdigit, ?_⟩
          have hvalue := h.value hout hdigit
          rw [hresult] at hvalue
          exact congrArg ExprResult.value (Option.some.inj hvalue)
        · intro ⟨hdigit, hvalue⟩
          refine ⟨⟨fun h => absurd h hnoerror, fun h => absurd hdigit (h.resolve_left hout)⟩, fun _ _ => ?_⟩
          rw [hresult, hvalue]

/-- The token of a negative number. -/
def minusOne : Token := ⟨"-1".toList, 2⟩

theorem Lex_minusOne : Lex "-1".toList = some minusOne := by
  rfl

theorem minusOne_numeral : minusOne.numeral = ⟨true, 10, 4, ['1']⟩ := by
  decide

/-- A number with a radix and a separator. -/
def hexNumber : Token := ⟨"0x1_F".toList, 5⟩

theorem hexNumber_numeral : hexNumber.numeral = ⟨false, 16, 4, ['1', '_', 'F']⟩ := by
  decide

/-- At eight and at 64 bits it is read right. -/
theorem hexNumber_right : NumberRight 8 hexNumber ∧ NumberRight 64 hexNumber := by
  have hlex : Lex "0x1_F".toList = some hexNumber := rfl
  have hdigit : hexNumber.numeral.HasDigit := by
    rw [hexNumber_numeral]
    exact ⟨'1', List.mem_cons_self, by decide⟩
  have hbits : hexNumber.numeral.bits = 12 := by
    rw [hexNumber_numeral]
    rfl
  have hvalue : hexNumber.numeral.value = 31 := by
    rw [hexNumber_numeral]
    rfl
  refine ⟨(numberRight_iff (by decide) hlex 8).2 (.inr ⟨by omega, .inr ⟨hdigit, .inl (by omega)⟩⟩),
    (numberRight_iff (by decide) hlex 64).2 (.inr ⟨by omega, .inr ⟨hdigit, .inr ?_⟩⟩)⟩
  rw [hbits, hvalue]
  decide

/-- At eight bits it is read as fifteen. -/
theorem minusOne_not_right : Lex "-1".toList = some minusOne ∧ ¬NumberRight 8 minusOne := by
  refine ⟨Lex_minusOne, fun h => ?_⟩
  have hinside : ¬minusOne.numeral.OutsideRadix := by
    rw [minusOne_numeral]
    rintro ⟨c, hc, -, hout⟩
    rw [List.mem_singleton.1 hc] at hout
    exact absurd (hout 1 rfl) (by decide)
  have hdigit : minusOne.numeral.HasDigit := by
    rw [minusOne_numeral]
    exact ⟨'1', List.mem_cons_self, by decide⟩
  have hvalue := h.value hinside hdigit
  rw [minusOne_numeral] at hvalue
  exact absurd hvalue (by decide)

end SymBisect.ParserImpl
