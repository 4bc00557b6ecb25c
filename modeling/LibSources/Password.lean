import Mathlib.Tactic

/-!
# Password Authentication of `libmysql/password.c`

The client proves that it knows the password: its reply to the random message of the server is
`SHA1(message, SHA1(SHA1(password)))` xor `SHA1(password)`, and the server, which keeps
`SHA1(SHA1(password))` only, undoes the xor and hashes once more.

`SHA1` is an arbitrary function into twenty bytes, and `memcmp` is any function whose results
are of type `int` and have the right sign.

## Main results

* `checkScramble_sound_iff`: when only right replies are accepted.
-/

namespace LibSources

open List

/-! ### Library routines -/

def sha1HashSize : ℕ := 20

structure Digest where
  bytes : List UInt8
  length_bytes : bytes.length = sha1HashSize

/-- The sign of a comparison of two byte strings: of their first difference. -/
def byteOrder : List UInt8 → List UInt8 → ℤ
  | a :: as, b :: bs => if a < b then -1 else if b < a then 1 else byteOrder as bs
  | _, _ => 0

structure Memcmp where
  cmp : List UInt8 → List UInt8 → ℕ → ℤ
  int_range : ∀ a b n, -2 ^ 31 ≤ cmp a b n ∧ cmp a b n < 2 ^ 31
  sign_cmp : ∀ a b n, (cmp a b n).sign = byteOrder (a.take n) (b.take n)

def myBool (n : ℤ) : BitVec 8 := BitVec.ofInt 8 n

def strlen (s : List UInt8) : ℕ := (s.takeWhile (· ≠ 0)).length

abbrev Sha1Context := List UInt8

def mysqlSha1Reset : Sha1Context := []

def mysqlSha1Input (context : Sha1Context) (message : List UInt8) (length : ℕ) : Sha1Context :=
  context ++ message.take (length % 2 ^ 32)

section

variable (sha1 : List UInt8 → Digest)

def mysqlSha1Result (context : Sha1Context) : List UInt8 := (sha1 context).bytes

/-! ### The routines of the file -/

def digVecUpper (i : UInt8) : UInt8 := if i < 10 then 48 + i else 55 + i

def charVal (x : UInt8) : UInt8 :=
  if 48 ≤ x ∧ x ≤ 57 then x - 48 else if 65 ≤ x ∧ x ≤ 90 then x - 65 + 10 else x - 97 + 10

def octet2hex : List UInt8 → List UInt8
  | [] => [0]
  | b :: str => digVecUpper (b >>> 4) :: digVecUpper (b &&& 0x0F) :: octet2hex str

def hex2octet : List UInt8 → List UInt8
  | a :: b :: str => (charVal a <<< 4 ||| charVal b) :: hex2octet str
  | _ => []

def myCrypt (s1 s2 : List UInt8) (len : ℕ) : List UInt8 :=
  zipWith (· ^^^ ·) (s1.take len) (s2.take len)

def makeScrambledPassword (password : List UInt8) : List UInt8 :=
  let stage1 := mysqlSha1Result sha1 (mysqlSha1Input mysqlSha1Reset password (strlen password))
  let stage2 := mysqlSha1Result sha1 (mysqlSha1Input mysqlSha1Reset stage1 sha1HashSize)
  42 :: octet2hex (stage2.take sha1HashSize)

def scramble (message password : List UInt8) : List UInt8 :=
  let stage1 := mysqlSha1Result sha1 (mysqlSha1Input mysqlSha1Reset password (strlen password))
  let stage2 := mysqlSha1Result sha1 (mysqlSha1Input mysqlSha1Reset stage1 sha1HashSize)
  let context := mysqlSha1Input mysqlSha1Reset message sha1HashSize
  let dst := mysqlSha1Result sha1 (mysqlSha1Input context stage2 sha1HashSize)
  myCrypt dst stage1 sha1HashSize

def checkScramble (memcmp : Memcmp) (scrambleArg message hashStage2 : List UInt8) : BitVec 8 :=
  let context := mysqlSha1Input mysqlSha1Reset message sha1HashSize
  let buf := mysqlSha1Result sha1 (mysqlSha1Input context hashStage2 sha1HashSize)
  let buf := myCrypt buf scrambleArg sha1HashSize
  let reassured := mysqlSha1Result sha1 (mysqlSha1Input mysqlSha1Reset buf sha1HashSize)
  myBool (memcmp.cmp hashStage2 reassured sha1HashSize)

end

def getSaltFromPassword (password : List UInt8) : List UInt8 :=
  hex2octet ((password.drop 1).take (sha1HashSize * 2))

/-! ### Comparison of bytes -/

theorem byteOrder_self (a : List UInt8) : byteOrder a a = 0 := by
  induction a with
  | nil => rfl
  | cons x a ih => rw [byteOrder, if_neg (UInt8.lt_irrefl x), if_neg (UInt8.lt_irrefl x), ih]

theorem eq_of_byteOrder_eq_zero {a b : List UInt8} (hlen : a.length = b.length)
    (h : byteOrder a b = 0) : a = b := by
  induction a generalizing b with
  | nil => exact (length_eq_zero_iff.mp hlen.symm).symm
  | cons x a ih =>
    cases b with
    | nil => exact absurd hlen (Nat.succ_ne_zero _)
    | cons y b =>
      rw [byteOrder] at h
      split at h
      · exact absurd h (by decide)
      split at h
      · exact absurd h (by decide)
      rename_i hxy hyx
      have heq : x = y := UInt8.le_antisymm (UInt8.not_lt.mp hyx) (UInt8.not_lt.mp hxy)
      rw [heq, ih (Nat.succ_inj.mp hlen) h]

namespace Digest

theorem take_bytes (d : Digest) : d.bytes.take sha1HashSize = d.bytes :=
  take_of_length_le d.length_bytes.le

theorem take_bytes_mod (d : Digest) : d.bytes.take (sha1HashSize % 2 ^ 32) = d.bytes := d.take_bytes

end Digest

theorem Memcmp.cmp_eq_zero_iff (memcmp : Memcmp) (a b : Digest) :
    memcmp.cmp a.bytes b.bytes sha1HashSize = 0 ↔ a.bytes = b.bytes := by
  rw [← Int.sign_eq_zero_iff_zero, memcmp.sign_cmp, a.take_bytes, b.take_bytes]
  constructor
  · exact eq_of_byteOrder_eq_zero (a.length_bytes.trans b.length_bytes.symm)
  · intro h
    rw [h, byteOrder_self]

theorem myBool_eq_zero_iff (n : ℤ) : myBool n = 0 ↔ 256 ∣ n := by
  rw [myBool, BitVec.toNat_eq, BitVec.toNat_ofInt]
  change (n % 256).toNat = 0 ↔ 256 ∣ n
  omega

theorem charVal_digVecUpper (b : UInt8) :
    charVal (digVecUpper (b >>> 4)) <<< 4 ||| charVal (digVecUpper (b &&& 0x0F)) = b := by
  obtain ⟨⟨n⟩⟩ := b
  revert n
  decide +kernel

theorem hex2octet_octet2hex (str : List UInt8) :
    hex2octet ((octet2hex str).take (2 * str.length)) = str := by
  induction str with
  | nil => rfl
  | cons b str ih =>
    rw [length_cons, mul_add, octet2hex, take_succ_cons, take_succ_cons,
      hex2octet, charVal_digVecUpper, ih]

/-! ### Authentication -/

theorem zipWith_xor_cancel {a b : List UInt8} (h : a.length = b.length) :
    zipWith (· ^^^ ·) a (zipWith (· ^^^ ·) a b) = b := by
  induction a generalizing b with
  | nil => exact (length_eq_zero_iff.mp h.symm).symm
  | cons x a ih =>
    cases b with
    | nil => rfl
    | cons y b =>
      rw [zipWith_cons_cons, zipWith_cons_cons, ih (Nat.succ_inj.mp h),
        ← UInt8.xor_assoc, UInt8.xor_self, UInt8.zero_xor]

def Digest.xor (a b : Digest) : Digest where
  bytes := zipWith (· ^^^ ·) a.bytes b.bytes
  length_bytes := by rw [length_zipWith, a.length_bytes, b.length_bytes, min_self]

theorem Digest.xor_xor (a b : Digest) : a.xor (a.xor b) = b := by
  have hcancel := zipWith_xor_cancel (a.length_bytes.trans b.length_bytes.symm)
  cases b
  simpa only [Digest.xor, mk.injEq] using hcancel

theorem Digest.xor_comm (a b : Digest) : a.xor b = b.xor a := by
  rw [Digest.xor, Digest.xor, mk.injEq]
  exact zipWith_comm_of_comm UInt8.xor_comm

theorem myCrypt_bytes (a b : Digest) : myCrypt a.bytes b.bytes sha1HashSize = (a.xor b).bytes := by
  rw [myCrypt, a.take_bytes, b.take_bytes, Digest.xor]

section

variable (sha1 : List UInt8 → Digest)

section

variable (password : List UInt8)

def hashStage1 : Digest := sha1 (password.take (strlen password % 2 ^ 32))

def hashStage2 : Digest := sha1 (hashStage1 sha1 password).bytes

def scrambleKey (message stored : Digest) : Digest := sha1 (message.bytes ++ stored.bytes)

theorem getSaltFromPassword_makeScrambledPassword :
    getSaltFromPassword (makeScrambledPassword sha1 password) =
      (hashStage2 sha1 password).bytes := by
  have hround := hex2octet_octet2hex (hashStage2 sha1 password).bytes
  rw [(hashStage2 sha1 password).length_bytes] at hround
  rw [getSaltFromPassword, makeScrambledPassword, drop_one, tail_cons, mul_comm sha1HashSize]
  simp only [mysqlSha1Result, mysqlSha1Input, mysqlSha1Reset, nil_append,
    Digest.take_bytes, Digest.take_bytes_mod]
  exact hround

end

theorem scramble_eq (message : Digest) (password : List UInt8) :
    scramble sha1 message.bytes password =
      ((scrambleKey sha1 message (hashStage2 sha1 password)).xor (hashStage1 sha1 password)).bytes := by
  simp only [scramble, mysqlSha1Result, mysqlSha1Input, mysqlSha1Reset, nil_append,
    Digest.take_bytes_mod, myCrypt_bytes]
  rfl

variable (memcmp : Memcmp)

section

variable (reply message stored : Digest)

theorem checkScramble_eq : checkScramble sha1 memcmp reply.bytes message.bytes stored.bytes =
      myBool (memcmp.cmp stored.bytes
        (sha1 ((scrambleKey sha1 message stored).xor reply).bytes).bytes sha1HashSize) := by
  simp only [checkScramble, mysqlSha1Result, mysqlSha1Input, mysqlSha1Reset, nil_append,
    Digest.take_bytes_mod, myCrypt_bytes]
  rfl

/-- A reply is accepted iff the low byte of what `memcmp` returns is zero. -/
theorem checkScramble_eq_zero_iff :
    checkScramble sha1 memcmp reply.bytes message.bytes stored.bytes = 0 ↔
      256 ∣ memcmp.cmp stored.bytes
        (sha1 ((scrambleKey sha1 message stored).xor reply).bytes).bytes sha1HashSize := by
  rw [checkScramble_eq, myBool_eq_zero_iff]

end

theorem checkScramble_scramble_eq_zero (message : Digest) (password : List UInt8) :
    checkScramble sha1 memcmp (scramble sha1 message.bytes password) message.bytes
      (getSaltFromPassword (makeScrambledPassword sha1 password)) = 0 := by
  rw [getSaltFromPassword_makeScrambledPassword, scramble_eq, checkScramble_eq_zero_iff,
    Digest.xor_xor]
  have hzero := (memcmp.cmp_eq_zero_iff (hashStage2 sha1 password) _).mpr rfl
  rw [hashStage2] at hzero ⊢
  rw [hzero]
  exact dvd_zero 256

/-- Accepted replies are right for every message and every stored hash iff `memcmp`
never returns a multiple of 256 for a hash and different bytes; and the reply of a client that
knows the password is accepted. -/
theorem checkScramble_sound_iff : ((∀ message stored reply : Digest,
        checkScramble sha1 memcmp reply.bytes message.bytes stored.bytes = 0 →
          sha1 (reply.xor (sha1 (message.bytes ++ stored.bytes))).bytes = stored) ↔
      ∀ stored preimage : Digest, sha1 preimage.bytes ≠ stored →
        ¬ 256 ∣ memcmp.cmp stored.bytes (sha1 preimage.bytes).bytes sha1HashSize) ∧
    ∀ (message : Digest) (password : List UInt8),
      checkScramble sha1 memcmp (scramble sha1 message.bytes password) message.bytes
        (getSaltFromPassword (makeScrambledPassword sha1 password)) = 0 := by
  refine ⟨⟨?_, ?_⟩, checkScramble_scramble_eq_zero sha1 memcmp⟩
  · intro hsound stored preimage hne hdvd
    -- The reply that makes the server hash `preimage`.
    have haccept := checkScramble_eq_zero_iff sha1 memcmp
      ((scrambleKey sha1 stored stored).xor preimage) stored stored
    rw [Digest.xor_xor] at haccept
    have hright := hsound stored stored _ (haccept.mpr hdvd)
    rw [Digest.xor_comm] at hright
    change sha1 ((scrambleKey sha1 stored stored).xor _).bytes = stored at hright
    rw [Digest.xor_xor] at hright
    exact hne hright
  · intro hcmp message stored reply haccept
    rw [checkScramble_eq_zero_iff] at haccept
    rw [Digest.xor_comm]
    by_contra hne
    exact hcmp stored _ hne haccept

end

def Digest.replicate (b : UInt8) : Digest := ⟨List.replicate sha1HashSize b, rfl⟩

theorem abs_byteOrder_le (a b : List UInt8) : -1 ≤ byteOrder a b ∧ byteOrder a b ≤ 1 := by
  induction a generalizing b with
  | nil =>
    change (-1 : ℤ) ≤ 0 ∧ (0 : ℤ) ≤ 1
    decide
  | cons x a ih =>
    cases b with
    | nil =>
      change (-1 : ℤ) ≤ 0 ∧ (0 : ℤ) ≤ 1
      decide
    | cons y b =>
      rw [byteOrder]
      split
      · decide
      split
      · decide
      · exact ih b

def memcmp256 : Memcmp where
  cmp a b n := 256 * byteOrder (a.take n) (b.take n)
  int_range a b n := by
    have h := abs_byteOrder_le (a.take n) (b.take n)
    omega
  sign_cmp a b n := by
    obtain h | h | h : byteOrder (a.take n) (b.take n) = -1 ∨ byteOrder (a.take n) (b.take n) = 0 ∨
        byteOrder (a.take n) (b.take n) = 1 := by
      have h := abs_byteOrder_le (a.take n) (b.take n)
      omega
    all_goals
      rw [h]
      rfl

def sha1Zero (_ : List UInt8) : Digest := .replicate 0

/-- With this `memcmp` a wrong reply is accepted. -/
theorem checkScramble_memcmp256 :
    checkScramble sha1Zero memcmp256 (Digest.replicate 7).bytes (Digest.replicate 2).bytes
        (Digest.replicate 1).bytes = 0 ∧
      (sha1Zero ((Digest.replicate 7).xor (sha1Zero ((Digest.replicate 2).bytes ++
        (Digest.replicate 1).bytes))).bytes).bytes ≠ (Digest.replicate 1).bytes := by
  decide +kernel

end LibSources
