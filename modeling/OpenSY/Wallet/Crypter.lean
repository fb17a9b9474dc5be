import OpenSY.Chain.Primitives
import OpenSY.Lib.Transition

/-!
# The wallet's encryption context

`CCrypter` of `wallet/crypter.cpp`: a key, an IV and the flag that they are set.  `SetKey` and
`SetKeyFromPassphrase` set them, `Encrypt` and `Decrypt` use them.  SHA-512, AES-256-CBC and the
Argon2id of the build are parameters; Argon2id may fail, and may do so in one call and not in the
next.

A setter that derives no key wipes the key and the IV but leaves the flag.  `crypter_current` says
exactly which calls are harmless: in a run, every state holds the key established last, as far as
the flag is set, if and only if no derivation fails while another key is held.
-/

namespace OpenSY.Wallet.Crypter

open OpenSY.Chain OpenSY.Transition

def walletCryptoKeySize : ℕ := 32

def walletCryptoSaltSize : ℕ := 8

def walletCryptoIvSize : ℕ := 16

/-- `CMasterKey::DEFAULT_ARGON2ID_MEMORY_KB` -/
def defaultArgon2idMemoryKb : ℕ := 65536

/-- `CMasterKey::DEFAULT_ARGON2ID_PARALLELISM` -/
def defaultArgon2idParallelism : ℕ := 4

/-- `KeyDerivationMethod` as the unsigned numbers that wallets store. -/
def methodSha512Aes : UInt32 := 0

def methodArgon2id : UInt32 := 1

/-- `Argon2idDerive`: password, salt, iterations, memory in KB, parallelism and output length to the
output, or nothing where it returns false. -/
abbrev Derive : Type := Bytes → Bytes → ℕ → ℕ → ℕ → ℕ → Option Bytes

/-- AES-256-CBC with padding: key, IV and data to the bytes written. -/
structure Cipher where
  encrypt : Bytes → Bytes → Bytes → Bytes
  decrypt : Bytes → Bytes → Bytes → Bytes

/-! ### Key derivation -/

/-- The conversion of `unsigned int` to `int`. -/
def asInt (n : UInt32) : ℤ := n.toBitVec.toInt

/-- Key and IV as they are copied from the derived bytes. -/
def splitDerived (derived : Bytes) : Bytes × Bytes :=
  (derived.take walletCryptoKeySize, (derived.drop walletCryptoKeySize).take walletCryptoIvSize)

/-- `BytesToKeySHA512AES`; the loop counter runs up to `count - 1` as a 32-bit number. -/
def bytesToKeySHA512AES (sha512 : Bytes → Bytes) (salt keyData : Bytes) (count : UInt32) :
    Option (Bytes × Bytes) :=
  if count = 0 then none
  else some (splitDerived (sha512^[(count - 1).toNat] (sha512 (keyData ++ salt))))

/-- `BytesToKeyArgon2id` -/
def bytesToKeyArgon2id (derive : Derive) (salt keyData : Bytes) (iterations : ℤ)
    (memoryKb parallelism : ℕ) : Option (Bytes × Bytes) :=
  if iterations < 1 then none
  else (derive keyData salt iterations.toNat memoryKb parallelism
    (walletCryptoKeySize + walletCryptoIvSize)).map splitDerived

/-- The choice of the derivation in `SetKeyFromPassphrase`. -/
def deriveKey (sha512 : Bytes → Bytes) (derive : Derive) (keyData salt : Bytes)
    (rounds method : UInt32) :
    Option (Bytes × Bytes) :=
  if method = methodSha512Aes then bytesToKeySHA512AES sha512 salt keyData rounds
  else if method = methodArgon2id then
    bytesToKeyArgon2id derive salt keyData (asInt rounds) defaultArgon2idMemoryKb
      defaultArgon2idParallelism
  else none

/-! ### The context -/

structure CCrypter where
  vchKey : Bytes
  vchIV : Bytes
  fKeySet : Bool
deriving DecidableEq

namespace CCrypter

def new : CCrypter where
  vchKey := List.replicate walletCryptoKeySize 0
  vchIV := List.replicate walletCryptoIvSize 0
  fKeySet := false

/-- `memory_cleanse` of key and IV. -/
def cleanse (s : CCrypter) : CCrypter :=
  { s with vchKey := List.replicate s.vchKey.length 0, vchIV := List.replicate s.vchIV.length 0 }

def cleanKey (s : CCrypter) : CCrypter := { s.cleanse with fKeySet := false }

/-- The context after `SetKey`, and what it returns. -/
def setKey (s : CCrypter) (newKey newIv : Bytes) : CCrypter × Bool :=
  if newKey.length ≠ walletCryptoKeySize ∨ newIv.length ≠ walletCryptoIvSize then (s, false)
  else (⟨newKey, newIv, true⟩, true)

def setKeyFromPassphrase (sha512 : Bytes → Bytes) (derive : Derive) (s : CCrypter)
    (keyData salt : Bytes) (rounds method : UInt32) : CCrypter × Bool :=
  if rounds < 1 ∨ salt.length ≠ walletCryptoSaltSize then (s, false)
  else
    match deriveKey sha512 derive keyData salt rounds method with
    | none => (s.cleanse, false)
    | some (key, iv) => (⟨key, iv, true⟩, true)

/-- The ciphertext, if `Encrypt` returns true. -/
def encrypt (cipher : Cipher) (s : CCrypter) (plaintext : Bytes) : Option Bytes :=
  if !s.fKeySet then none
  else
    let out := cipher.encrypt s.vchKey s.vchIV plaintext
    if out.length < plaintext.length then none else some out

/-- The plaintext, if `Decrypt` returns true. -/
def decrypt (cipher : Cipher) (s : CCrypter) (ciphertext : Bytes) : Option Bytes :=
  if !s.fKeySet then none
  else
    let out := cipher.decrypt s.vchKey s.vchIV ciphertext
    if out.length = 0 then none else some out

theorem encrypt_eq_some {cipher : Cipher} {s : CCrypter} {plaintext out : Bytes}
    (h : s.encrypt cipher plaintext = some out) :
    s.fKeySet = true ∧ out = cipher.encrypt s.vchKey s.vchIV plaintext := by
  rw [encrypt] at h
  cases hset : s.fKeySet with
  | false =>
    rw [hset] at h
    cases h
  | true =>
    rw [hset, if_neg (by decide)] at h
    by_cases hshort : (cipher.encrypt s.vchKey s.vchIV plaintext).length < plaintext.length
    · rw [if_pos hshort] at h
      cases h
    · rw [if_neg hshort] at h
      exact ⟨rfl, (Option.some.inj h).symm⟩

theorem decrypt_eq_some {cipher : Cipher} {s : CCrypter} {ciphertext out : Bytes}
    (h : s.decrypt cipher ciphertext = some out) :
    s.fKeySet = true ∧ out = cipher.decrypt s.vchKey s.vchIV ciphertext := by
  rw [decrypt] at h
  cases hset : s.fKeySet with
  | false =>
    rw [hset] at h
    cases h
  | true =>
    rw [hset, if_neg (by decide)] at h
    by_cases hempty : (cipher.decrypt s.vchKey s.vchIV ciphertext).length = 0
    · rw [if_pos hempty] at h
      cases h
    · rw [if_neg hempty] at h
      exact ⟨rfl, (Option.some.inj h).symm⟩

end CCrypter

/-! ### Runs -/

/-- A call on the context.  The Argon2id of the build belongs to the call, since whether it gets its
memory does. -/
inductive Call where
  | setKey (newKey newIv : Bytes)
  | setKeyFromPassphrase (derive : Derive) (keyData salt : Bytes) (rounds method : UInt32)
  | encrypt (plaintext : Bytes)
  | decrypt (ciphertext : Bytes)
  | cleanKey

/-- What a call makes of the context, and whether it is a setter that returned true. -/
def Call.run (sha512 : Bytes → Bytes) (s : CCrypter) : Call → CCrypter × Bool
  | .setKey newKey newIv => s.setKey newKey newIv
  | .setKeyFromPassphrase derive keyData salt rounds method =>
    s.setKeyFromPassphrase sha512 derive keyData salt rounds method
  | .encrypt _ => (s, false)
  | .decrypt _ => (s, false)
  | .cleanKey => (s.cleanKey, false)

/-- The key and the IV a setter is called to set: those given, or those derived from the passphrase.
-/
def Call.newKeyAndIv (sha512 : Bytes → Bytes) : Call → Option (Bytes × Bytes)
  | .setKey newKey newIv => some (newKey, newIv)
  | .setKeyFromPassphrase derive keyData salt rounds method =>
    deriveKey sha512 derive keyData salt rounds method
  | _ => none

/-- The context, and the key and IV of the setter that last returned true. -/
structure Session where
  crypter : CCrypter
  established : Option (Bytes × Bytes)

def Session.new : Session := ⟨.new, none⟩

/-- What is established is read off the call, not off the context it leaves. -/
def Session.call (sha512 : Bytes → Bytes) (s : Session) (c : Call) : Session where
  crypter := (c.run sha512 s.crypter).1
  established := if (c.run sha512 s.crypter).2 then c.newKeyAndIv sha512 else s.established

/-- As far as the flag is set, the key and the IV are those established last. -/
def Session.Current (s : Session) : Prop :=
  s.crypter.fKeySet = true → s.established = some (s.crypter.vchKey, s.crypter.vchIV)

/-- The arguments of `SetKeyFromPassphrase` pass its first check. -/
def Accepted (salt : Bytes) (rounds : UInt32) : Prop :=
  ¬ (rounds < 1 ∨ salt.length ≠ walletCryptoSaltSize)

/-- No key comes out of the derivation: the method is unknown, or Argon2id gets a number of
iterations that is no positive `int`, or Argon2id fails. -/
def DerivationFails (derive : Derive) (keyData salt : Bytes) (rounds method : UInt32) : Prop :=
  method ≠ methodSha512Aes ∧
    (method = methodArgon2id →
      asInt rounds < 1 ∨
        derive keyData salt (asInt rounds).toNat defaultArgon2idMemoryKb defaultArgon2idParallelism
          48 = none)

/-- The call is no failing derivation on a context that holds a key and an IV other than zeros. -/
def Call.Harmless (s : Session) : Call → Prop
  | .setKeyFromPassphrase derive keyData salt rounds method =>
    s.crypter.fKeySet = true → Accepted salt rounds →
      DerivationFails derive keyData salt rounds method →
      s.crypter.cleanse = s.crypter
  | _ => True

/-- The method that is neither is refused, SHA-512 never fails where the rounds are at least one. -/
theorem deriveKey_eq_none_iff (sha512 : Bytes → Bytes) (derive : Derive) (keyData salt : Bytes)
    {rounds : UInt32} (hrounds : ¬ rounds < 1) (method : UInt32) :
    deriveKey sha512 derive keyData salt rounds method = none
      ↔ DerivationFails derive keyData salt rounds method := by
  have hzero : rounds ≠ 0 := by
    rintro rfl
    exact hrounds (by decide)
  rw [deriveKey, DerivationFails]
  by_cases hsha : method = methodSha512Aes
  · rw [if_pos hsha, bytesToKeySHA512AES, if_neg hzero]
    exact iff_of_false (Option.some_ne_none _) fun h => h.1 hsha
  rw [if_neg hsha]
  by_cases hargon : method = methodArgon2id
  · rw [if_pos hargon, bytesToKeyArgon2id]
    by_cases hiter : asInt rounds < 1
    · rw [if_pos hiter]
      exact ⟨fun _ => ⟨hsha, fun _ => .inl hiter⟩, fun _ => rfl⟩
    · rw [if_neg hiter, Option.map_eq_none_iff]
      exact ⟨fun h => ⟨hsha, fun _ => .inr h⟩, fun h => (h.2 hargon).resolve_left hiter⟩
  · rw [if_neg hargon]
    exact ⟨fun _ => ⟨hsha, fun h => absurd h hargon⟩, fun _ => rfl⟩

/-! ### Which calls keep the key current -/

section Steps

variable {sha512 : Bytes → Bytes} {s : Session}

/-- A setter that returns true has put its key and its IV in place. -/
theorem Session.call_current_of_set {c : Call} {key iv : Bytes}
    (hrun : c.run sha512 s.crypter = (⟨key, iv, true⟩, true))
    (hnew : c.newKeyAndIv sha512 = some (key, iv)) :
    (s.call sha512 c).Current := by
  intro _
  rw [Session.call, hrun, if_pos rfl]
  exact hnew

/-- A call that returns false and leaves the context alone keeps what was established. -/
theorem Session.call_eq_of_same {c : Call} (h : c.run sha512 s.crypter = (s.crypter, false)) :
    s.call sha512 c = s := by
  rw [Session.call, h]
  rfl

theorem Session.current_setKey (hs : s.Current) (newKey newIv : Bytes) :
    (s.call sha512 (.setKey newKey newIv)).Current := by
  by_cases hsize : newKey.length ≠ walletCryptoKeySize ∨ newIv.length ≠ walletCryptoIvSize
  · have hrun : Call.run sha512 s.crypter (.setKey newKey newIv) = (s.crypter, false) :=
      if_pos hsize
    rw [Session.call_eq_of_same hrun]
    exact hs
  · have hrun : Call.run sha512 s.crypter (.setKey newKey newIv) = (⟨newKey, newIv, true⟩, true) :=
      if_neg hsize
    exact Session.call_current_of_set hrun rfl

/-- A failed derivation wipes the key under a flag that stays as it was. -/
theorem Session.call_of_derivationFails {derive : Derive} {keyData salt : Bytes}
    {rounds method : UInt32} (haccepted : Accepted salt rounds)
    (hfails : DerivationFails derive keyData salt rounds method) :
    s.call sha512 (.setKeyFromPassphrase derive keyData salt rounds method)
      = ⟨s.crypter.cleanse, s.established⟩ := by
  have hnone :=
    (deriveKey_eq_none_iff sha512 derive keyData salt (not_or.mp haccepted).1 method).mpr hfails
  have hrun : Call.run sha512 s.crypter (.setKeyFromPassphrase derive keyData salt rounds method)
      = (s.crypter.cleanse, false) := by
    show s.crypter.setKeyFromPassphrase sha512 derive keyData salt rounds method = _
    rw [CCrypter.setKeyFromPassphrase, if_neg haccepted, hnone]
  rw [Session.call, hrun]
  rfl

/-- A derivation that is refused or succeeds keeps the key current. -/
theorem Session.current_setKeyFromPassphrase (hs : s.Current) {derive : Derive}
    {keyData salt : Bytes} {rounds method : UInt32}
    (hgood : Accepted salt rounds → ¬ DerivationFails derive keyData salt rounds method) :
    (s.call sha512 (.setKeyFromPassphrase derive keyData salt rounds method)).Current := by
  by_cases hargs : rounds < 1 ∨ salt.length ≠ walletCryptoSaltSize
  · have hrun : Call.run sha512 s.crypter (.setKeyFromPassphrase derive keyData salt rounds method)
        = (s.crypter, false) := if_pos hargs
    rw [Session.call_eq_of_same hrun]
    exact hs
  · have hsome :=
      mt (deriveKey_eq_none_iff sha512 derive keyData salt (not_or.mp hargs).1 method).mp
      (hgood hargs)
    obtain ⟨⟨key, iv⟩, hderived⟩ := Option.ne_none_iff_exists'.mp hsome
    refine Session.call_current_of_set ?_ hderived
    show s.crypter.setKeyFromPassphrase sha512 derive keyData salt rounds method = _
    rw [CCrypter.setKeyFromPassphrase, if_neg hargs, hderived]

/-- Wiping the key under a set flag keeps it current only where it was zeros before. -/
theorem Session.current_cleanse_iff (hs : s.Current) (hset : s.crypter.fKeySet = true) :
    (⟨s.crypter.cleanse, s.established⟩ : Session).Current ↔ s.crypter.cleanse = s.crypter := by
  have hnow := hs hset
  constructor
  · intro h
    have hlater : s.established = some (s.crypter.cleanse.vchKey, s.crypter.cleanse.vchIV) := h hset
    obtain ⟨hkey, hiv⟩ := Prod.mk.inj (Option.some.inj (hnow.symm.trans hlater))
    show (⟨s.crypter.cleanse.vchKey, s.crypter.cleanse.vchIV, s.crypter.fKeySet⟩ : CCrypter) =
        s.crypter
    rw [← hkey, ← hiv]
  · intro h
    rw [h]
    exact hs

/-- **Which calls keep the key current.** -/
theorem Session.current_call_iff (c : Call) (hs : s.Current) :
    (s.call sha512 c).Current ↔ c.Harmless s := by
  cases c with
  | setKey newKey newIv => exact iff_of_true (Session.current_setKey hs newKey newIv) trivial
  | setKeyFromPassphrase derive keyData salt rounds method =>
    by_cases hbad : Accepted salt rounds ∧ DerivationFails derive keyData salt rounds method
    · rw [Session.call_of_derivationFails hbad.1 hbad.2]
      cases hset : s.crypter.fKeySet with
      | true =>
        rw [Session.current_cleanse_iff hs hset]
        exact ⟨fun h _ _ _ => h, fun h => h hset hbad.1 hbad.2⟩
      | false =>
        have hclear : s.crypter.fKeySet ≠ true := by
          rw [hset]
          decide
        exact iff_of_true (fun h => absurd h hclear) (fun h => absurd h hclear)
    · exact iff_of_true (Session.current_setKeyFromPassphrase hs fun ha hf => hbad ⟨ha, hf⟩)
        (fun _ ha hf => absurd ⟨ha, hf⟩ hbad)
  | encrypt plaintext =>
    rw [Session.call_eq_of_same rfl]
    exact iff_of_true hs trivial
  | decrypt ciphertext =>
    rw [Session.call_eq_of_same rfl]
    exact iff_of_true hs trivial
  | cleanKey => exact iff_of_true (fun h => absurd h Bool.false_ne_true) trivial

end Steps

theorem Session.new_current : Session.new.Current := fun h => absurd h Bool.false_ne_true

/-- For any calls on a new context: every state on the way holds the key established last, as far as
the flag is set, if and only if every call is harmless where it is made; and where they all are, an
`Encrypt` or `Decrypt` that returns true has used the key and the IV that were given to the last
setter that returned true, or derived by it. -/
theorem crypter_current (sha512 : Bytes → Bytes) (cipher : Cipher) (calls : List Call) :
    ((∀ front, front <+: calls → (front.foldl (Session.call sha512) .new).Current) ↔
        Along (Session.call sha512) Call.Harmless .new calls) ∧
      (Along (Session.call sha512) Call.Harmless .new calls →
        ∀ front, front <+: calls →
          let s := front.foldl (Session.call sha512) .new
          (∀ plaintext out, s.crypter.encrypt cipher plaintext = some out →
            ∃ key iv, s.established = some (key, iv) ∧ out = cipher.encrypt key iv plaintext) ∧
          ∀ ciphertext out, s.crypter.decrypt cipher ciphertext = some out →
            ∃ key iv, s.established = some (key, iv) ∧ out = cipher.decrypt key iv ciphertext) := by
  have hstep : ∀ (s : Session) (c : Call), s.Current → ((s.call sha512 c).Current ↔ c.Harmless s) :=
    fun s c hs => Session.current_call_iff c hs
  have hstates := forall_states_iff_along hstep Session.new_current calls
  refine ⟨hstates, fun halong front hfront =>
    ⟨fun plaintext out h => ?_, fun ciphertext out h => ?_⟩⟩
  · obtain ⟨hset, hout⟩ := CCrypter.encrypt_eq_some h
    exact ⟨_, _, hstates.mpr halong front hfront hset, hout⟩
  · obtain ⟨hset, hout⟩ := CCrypter.decrypt_eq_some h
    exact ⟨_, _, hstates.mpr halong front hfront hset, hout⟩

/-- A key is set, then Argon2id fails for another passphrase: the next `Encrypt` returns true and
has used a key and an IV of zeros. -/
theorem encrypt_zeroed_key :
    let cipher : Cipher := ⟨fun key iv data => key ++ iv ++ data, fun _ _ data => data⟩
    let failing : Derive := fun _ _ _ _ _ _ => none
    let key := List.replicate 32 1
    let iv := List.replicate 16 2
    let s :=
      [Call.setKey key iv,
        .setKeyFromPassphrase failing [] (List.replicate 8 0) 3 methodArgon2id].foldl
      (Session.call id) .new
    s.established = some (key, iv) ∧
      s.crypter.encrypt cipher [7] = some (List.replicate 32 0 ++ List.replicate 16 0 ++ [7]) := by
  decide

end OpenSY.Wallet.Crypter
