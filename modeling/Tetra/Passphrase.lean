import Mathlib
import Tetra.KeyStore
import Tetra.Maps
import Tetra.Pool

/-!
The master keys of an encrypted wallet, each encrypted under a key derived from a
passphrase, and the call that changes a passphrase: it locks the wallet, looks for the
record that the old passphrase opens, and encrypts the master key anew.
-/
namespace Tetra
open Std (ExtTreeMap)

structure CMasterKey where
  vchCryptedKey : List UInt8
  vchSalt : List UInt8
  nDerivationMethod : Nat := 0
  nDeriveIterations : Nat := 25000
  vchOtherDerivationParameters : List UInt8 := []
deriving DecidableEq

/-- `chKey` and `chIV` -/
abbrev DerivedKey := List UInt8 × List UInt8

def WALLET_CRYPTO_SALT_SIZE : Nat := 8

/-- What a `CCrypter` uses of the cipher library. -/
structure PassphraseRules where
  /-- The key and the vector, if as many bytes come out as the key has. -/
  EVP_BytesToKey : Text → List UInt8 → Nat → Option DerivedKey
  /-- Whether the encryption succeeds, and what the vector then holds. -/
  Encrypt : DerivedKey → CKeyingMaterial → Bool × List UInt8
  Decrypt : DerivedKey → List UInt8 → Option CKeyingMaterial

/-- The derivation works and tells passphrases apart, encryption works, and what is
    encrypted under a key is decrypted by this key and no other. -/
structure PassphraseRules.Exact (rules : PassphraseRules) : Prop where
  derives : ∀ pass salt n, (rules.EVP_BytesToKey pass salt n).isSome = true
  injective : ∀ pass pass' salt n, rules.EVP_BytesToKey pass salt n = rules.EVP_BytesToKey pass' salt n → pass = pass'
  encrypts : ∀ key m, (rules.Encrypt key m).1 = true
  inverted : ∀ key c m, rules.Decrypt key c = some m ↔ (rules.Encrypt key m).2 = c
  own : ∀ key key' m m', (rules.Encrypt key m).2 = (rules.Encrypt key' m').2 → key = key'

namespace CMasterKey

/-- `crypter.SetKeyFromPassphrase(pass, vchSalt, nDeriveIterations, nDerivationMethod)` -/
def SetKeyFromPassphrase (rules : PassphraseRules) (pass : Text) (r : CMasterKey) : Option DerivedKey :=
  if r.nDeriveIterations < 1 ∨ r.vchSalt.length ≠ WALLET_CRYPTO_SALT_SIZE then none
  else if r.nDerivationMethod = 0 then rules.EVP_BytesToKey pass r.vchSalt r.nDeriveIterations
  else none

/-- The master key that the record gives for a passphrase. -/
def material (rules : PassphraseRules) (pass : Text) (r : CMasterKey) : Option CKeyingMaterial :=
  match r.SetKeyFromPassphrase rules pass with
  | none => none
  | some key => rules.Decrypt key r.vchCryptedKey

end CMasterKey

/-- The wallet's keys and its master keys. -/
structure MasterWallet extends CCryptoKeyStore where
  mapMasterKeys : ExtTreeMap Nat CMasterKey := ∅

namespace MasterWallet
variable (crypto : CryptoRules) (rules : PassphraseRules)

/-- The loop of `Unlock`. -/
def tryKeys (pass : Text) : List (Nat × CMasterKey) → CCryptoKeyStore → Bool × CCryptoKeyStore
  | [], s => (false,s)
  | (_,r) :: rest, s =>
    match r.material rules pass with
    | none => (false,s)
    | some vMasterKey =>
      match s.Unlock crypto vMasterKey with
      | (true,s) => (true,s)
      | (false,s) => tryKeys pass rest s

def Unlock (w : MasterWallet) (strWalletPassphrase : Text) : Bool × MasterWallet :=
  if !w.IsLocked then (false,w)
  else
    let (unlocked,s) := tryKeys crypto rules strWalletPassphrase w.mapMasterKeys.toList w.toCCryptoKeyStore
    (unlocked,{w with toCCryptoKeyStore := s})

def relock (w : MasterWallet) : MasterWallet := {w with toCCryptoKeyStore := w.toCCryptoKeyStore.Lock.2}

/-- The record with the iterations that the timing of the derivation gives. -/
def retime (retimed : CMasterKey → Nat) (r : CMasterKey) : CMasterKey :=
  {r with nDeriveIterations := if retimed r < 25000 then 25000 else retimed r}

/-- What is done with the record that the old passphrase opened. -/
def rewrap (fWasLocked : Bool) (strNewWalletPassphrase : Text) (retimed : CMasterKey → Nat) (id : Nat) (r : CMasterKey)
    (vMasterKey : CKeyingMaterial) (w : MasterWallet) : Bool × MasterWallet :=
  let r := retime retimed r
  match r.SetKeyFromPassphrase rules strNewWalletPassphrase with
  | none => (false,{w with mapMasterKeys := w.mapMasterKeys.insert id r})
  | some key =>
    let (encrypted,vchCryptedKey) := rules.Encrypt key vMasterKey
    let w := {w with mapMasterKeys := w.mapMasterKeys.insert id {r with vchCryptedKey := vchCryptedKey}}
    if !encrypted then (false,w)
    else (true,if fWasLocked then w.relock else w)

/-- The loop of `ChangeWalletPassphrase`. -/
def changeKeys (fWasLocked : Bool) (strOldWalletPassphrase strNewWalletPassphrase : Text) (retimed : CMasterKey → Nat) :
    List (Nat × CMasterKey) → MasterWallet → Bool × MasterWallet
  | [], w => (false,w)
  | (id,r) :: rest, w =>
    match r.material rules strOldWalletPassphrase with
    | none => (false,w)
    | some vMasterKey =>
      match w.toCCryptoKeyStore.Unlock crypto vMasterKey with
      | (true,s) => rewrap rules fWasLocked strNewWalletPassphrase retimed id r vMasterKey {w with toCCryptoKeyStore := s}
      | (false,s) => changeKeys fWasLocked strOldWalletPassphrase strNewWalletPassphrase retimed rest {w with toCCryptoKeyStore := s}

def ChangeWalletPassphrase (w : MasterWallet) (strOldWalletPassphrase strNewWalletPassphrase : Text) (retimed : CMasterKey → Nat) :
    Bool × MasterWallet :=
  changeKeys crypto rules w.IsLocked strOldWalletPassphrase strNewWalletPassphrase retimed w.mapMasterKeys.toList w.relock

/-- Whether a record gives the passphrase a master key that the keys are encrypted under. -/
def opens (w : MasterWallet) (pass : Text) (r : CMasterKey) : Bool :=
  match r.material rules pass with
  | none => false
  | some vMasterKey => (w.toCCryptoKeyStore.Unlock crypto vMasterKey).1

/-- A call that fails leaves the lock and the records as they were. After one that succeeds the
    new passphrase unlocks the wallet, the old one does not open a record that changed unless
    it is the new one, and the lock is as it was. -/
def Atomic (w : MasterWallet) (old new : Text) (retimed : CMasterKey → Nat) : Prop :=
  let (done,w') := w.ChangeWalletPassphrase crypto rules old new retimed
  if done then
    (w'.relock.Unlock crypto rules new).1 = true ∧
      (old ≠ new → ∀ (id : Nat) (r : CMasterKey), w'.mapMasterKeys[id]? = some r → w.mapMasterKeys[id]? ≠ some r → w'.opens crypto rules old r = false) ∧
      w'.IsLocked = w.IsLocked
  else w'.IsLocked = w.IsLocked ∧ w'.mapMasterKeys = w.mapMasterKeys

/-- The first record that a passphrase opens, if it decrypts those before it; with its master key. -/
def opened (w : MasterWallet) (pass : Text) : List (Nat × CMasterKey) → Option (Nat × CMasterKey × CKeyingMaterial)
  | [] => none
  | (id,r) :: rest =>
    match r.material rules pass with
    | none => none
    | some vMasterKey => if (w.toCCryptoKeyStore.Unlock crypto vMasterKey).1 then some (id,r,vMasterKey) else opened w pass rest

/-- When the call is atomic: where the old passphrase opens a record, this is the first one or
    the passphrase stays the same, and its master key is not empty unless the wallet is locked; where
    it opens none, the wallet is locked already, or cannot be. -/
def Restores (w : MasterWallet) (old new : Text) : Prop :=
  match w.opened crypto rules old w.mapMasterKeys.toList with
  | some (id,_,vMasterKey) => (w.mapMasterKeys.toList.head?.map Prod.fst = some id ∨ new = old) ∧ (w.IsLocked = true ∨ vMasterKey ≠ [])
  | none => w.IsLocked = true ∨ (w.fUseCrypto = false ∧ w.mapKeys.isEmpty = false)

section
variable {crypto : CryptoRules} {rules : PassphraseRules}

/-! ### The key store -/

/-- Whether the store takes a master key. -/
def accepts (crypto : CryptoRules) (s : CCryptoKeyStore) (vMasterKey : CKeyingMaterial) : Bool := (s.Unlock crypto vMasterKey).1

/-- Whether the store can be locked: it is encrypted, or has no plain keys. -/
def lockable (s : CCryptoKeyStore) : Bool := s.fUseCrypto || s.mapKeys.isEmpty

theorem SetCrypted_eq (s : CCryptoKeyStore) : s.SetCrypted = if lockable s then (true,{s with fUseCrypto := true}) else (false,s) := by
  rw [CCryptoKeyStore.SetCrypted,lockable]
  cases crypted : s.fUseCrypto with
  | true =>
    obtain ⟨basic,crypt,master,use⟩ := s
    subst crypted
    rfl
  | false => cases s.mapKeys.isEmpty <;> rfl

theorem Lock_eq (s : CCryptoKeyStore) : s.Lock.2 = if lockable s then {s with fUseCrypto := true,vMasterKey := []} else s := by
  rw [CCryptoKeyStore.Lock,SetCrypted_eq]
  cases lockable s <;> rfl

/-- The first encrypted key decides. -/
def verified (crypto : CryptoRules) (s : CCryptoKeyStore) (vMasterKey : CKeyingMaterial) : Bool :=
  (s.mapCryptedKeys.toList.head?.map fun entry => CCryptoKeyStore.verifies crypto vMasterKey entry.2).getD true

theorem Unlock_eq (s : CCryptoKeyStore) (m : CKeyingMaterial) : s.Unlock crypto m =
    if lockable s then
      if verified crypto s m then (true,{s with fUseCrypto := true,vMasterKey := m}) else (false,{s with fUseCrypto := true})
    else (false,s) := by
  rw [CCryptoKeyStore.Unlock,SetCrypted_eq]
  cases lockable s with
  | false => rfl
  | true =>
    simp only [if_true]
    split
    · next absent =>
      have known : verified crypto s m = true := by rw [verified,absent]; rfl
      rw [known]
      rfl
    · next id entry present =>
      have known : verified crypto s m = CCryptoKeyStore.verifies crypto m entry := by rw [verified,present]; rfl
      rw [known]

theorem accepts_eq (s : CCryptoKeyStore) (m : CKeyingMaterial) : accepts crypto s m = (lockable s && verified crypto s m) := by
  rw [accepts,Unlock_eq]
  cases lockable s <;> cases verified crypto s m <;> rfl

/-- The store after `Lock`, which only another `Unlock` changes. -/
theorem Unlock_locked (s : CCryptoKeyStore) (m : CKeyingMaterial) : s.Lock.2.Unlock crypto m =
    if accepts crypto s m then (true,{s with fUseCrypto := true,vMasterKey := m}) else (false,s.Lock.2) := by
  rw [accepts_eq,Lock_eq]
  cases able : lockable s with
  | false =>
    simp only [Bool.false_eq_true,if_false,Bool.false_and]
    rw [Unlock_eq,able]
    rfl
  | true =>
    simp only [if_true,Bool.true_and]
    rw [Unlock_eq]
    cases verify : verified crypto s m with
    | false =>
      have same : verified crypto {s with fUseCrypto := true,vMasterKey := []} m = false := verify
      simp [lockable,same]
    | true =>
      have same : verified crypto {s with fUseCrypto := true,vMasterKey := []} m = true := verify
      simp [lockable,same]

/-! ### Records -/

theorem material_some {pass : Text} {r : CMasterKey} {m : CKeyingMaterial} (exact' : rules.Exact) (found : r.material rules pass = some m) :
    ∃ key, r.SetKeyFromPassphrase rules pass = some key ∧ (rules.Encrypt key m).2 = r.vchCryptedKey := by
  rw [CMasterKey.material] at found
  cases set : r.SetKeyFromPassphrase rules pass with
  | none => simp [set] at found
  | some key =>
    rw [set] at found
    exact ⟨key,rfl,(exact'.inverted key _ m).mp found⟩

theorem SetKey_injective {pass pass' : Text} {r : CMasterKey} {key : DerivedKey} (exact' : rules.Exact)
    (left : r.SetKeyFromPassphrase rules pass = some key) (right : r.SetKeyFromPassphrase rules pass' = some key) : pass = pass' := by
  rw [CMasterKey.SetKeyFromPassphrase] at left right
  split_ifs at left right
  exact exact'.injective pass pass' _ _ (left.trans right.symm)

/-- A record that gives one passphrase a master key gives no other one any. -/
theorem material_other {pass pass' : Text} {r : CMasterKey} {m : CKeyingMaterial} (exact' : rules.Exact) (found : r.material rules pass = some m)
    (other : pass ≠ pass') : r.material rules pass' = none := by
  obtain ⟨key,set,crypted⟩ := material_some exact' found
  by_contra present
  obtain ⟨m',found'⟩ := Option.ne_none_iff_exists'.mp present
  obtain ⟨key',set',crypted'⟩ := material_some exact' found'
  have same : key = key' := exact'.own key key' m m' (crypted.trans crypted'.symm)
  subst same
  exact other (SetKey_injective exact' set set')

/-! ### The loops -/

section
variable {w : MasterWallet} {pass : Text} {records : List (Nat × CMasterKey)} {id : Nat} {r : CMasterKey} {m : CKeyingMaterial}

/-- A record that gives a passphrase a master key which the store does not take. -/
def Passed (crypto : CryptoRules) (rules : PassphraseRules) (w : MasterWallet) (pass : Text) (r : CMasterKey) : Prop :=
  ∃ m, r.material rules pass = some m ∧ accepts crypto w.toCCryptoKeyStore m = false

theorem opened_iff : w.opened crypto rules pass records = some (id,r,m) ↔ ∃ before after, records = before ++ (id,r) :: after ∧
    (∀ e ∈ before, Passed crypto rules w pass e.2) ∧ r.material rules pass = some m ∧ accepts crypto w.toCCryptoKeyStore m = true := by
  induction records with
  | nil => simp [opened]
  | cons e rest ih =>
    obtain ⟨id',r'⟩ := e
    cases found : r'.material rules pass with
    | none =>
      simp only [opened,found,reduceCtorEq,false_iff]
      rintro ⟨before,after,entries,passed,given,-⟩
      cases before with
      | nil =>
        obtain ⟨rfl,rfl⟩ : id' = id ∧ r' = r := by simpa using (List.cons.inj entries).1
        rw [found] at given
        contradiction
      | cons first before =>
        obtain ⟨m',given',-⟩ := passed first (List.mem_cons_self ..)
        rw [← (List.cons.inj entries).1,found] at given'
        contradiction
    | some m' =>
      cases takes : accepts crypto w.toCCryptoKeyStore m' with
      | true =>
        rw [accepts] at takes
        simp only [opened,found,takes,if_true,Option.some.injEq,Prod.mk.injEq]
        constructor
        · rintro ⟨rfl,rfl,rfl⟩
          exact ⟨[],rest,rfl,by simp,found,takes⟩
        · rintro ⟨before,after,entries,passed,given,-⟩
          cases before with
          | nil =>
            obtain ⟨rfl,rfl⟩ : id' = id ∧ r' = r := by simpa using (List.cons.inj entries).1
            exact ⟨rfl,rfl,Option.some.inj (found.symm.trans given)⟩
          | cons first before =>
            obtain ⟨m'',given',rejects⟩ := passed first (List.mem_cons_self ..)
            rw [← (List.cons.inj entries).1] at given'
            obtain rfl := Option.some.inj (found.symm.trans given')
            rw [accepts,takes] at rejects
            contradiction
      | false =>
        have rejects := takes
        rw [accepts] at takes
        simp only [opened,found,takes,Bool.false_eq_true,if_false,ih]
        constructor
        · rintro ⟨before,after,rfl,passed,given⟩
          refine ⟨(id',r') :: before,after,rfl,fun e member => ?_,given⟩
          rcases List.mem_cons.mp member with rfl | member
          · exact ⟨m',found,rejects⟩
          · exact passed e member
        · rintro ⟨before,after,entries,passed,given,takes'⟩
          cases before with
          | nil =>
            obtain ⟨rfl,rfl⟩ : id' = id ∧ r' = r := by simpa using (List.cons.inj entries).1
            obtain rfl := Option.some.inj (found.symm.trans given)
            rw [rejects] at takes'
            contradiction
          | cons first before =>
            exact ⟨before,after,(List.cons.inj entries).2,fun e member => passed e (List.mem_cons_of_mem _ member),given,takes'⟩

/-- A record before all that open is one the passphrase gives nothing for: then none opens. -/
theorem opened_none_of_head {e : Nat × CMasterKey} (nothing : e.2.material rules pass = none) (rest : List (Nat × CMasterKey)) :
    w.opened crypto rules pass (e :: rest) = none := by
  obtain ⟨id',r'⟩ := e
  simp only at nothing
  simp [opened,nothing]

theorem tryKeys_locked (records : List (Nat × CMasterKey)) : (tryKeys crypto rules pass records w.toCCryptoKeyStore.Lock.2).1 =
    (w.opened crypto rules pass records).isSome := by
  induction records with
  | nil => rfl
  | cons e rest ih =>
    obtain ⟨id',r'⟩ := e
    cases found : r'.material rules pass with
    | none => simp [tryKeys,opened,found]
    | some m' =>
      cases takes : accepts crypto w.toCCryptoKeyStore m' with
      | true =>
        have unlocks : w.toCCryptoKeyStore.Lock.2.Unlock crypto m' = (true,{w.toCCryptoKeyStore with fUseCrypto := true,vMasterKey := m'}) := by
          rw [Unlock_locked,if_pos takes]
        rw [accepts] at takes
        simp [tryKeys,opened,found,unlocks,takes]
      | false =>
        have stays : w.toCCryptoKeyStore.Lock.2.Unlock crypto m' = (false,w.toCCryptoKeyStore.Lock.2) := by
          rw [Unlock_locked,if_neg (by simp [takes])]
        rw [accepts] at takes
        simp only [tryKeys,opened,found,stays,takes,Bool.false_eq_true,if_false,ih]

section
variable {fWasLocked : Bool} {new : Text} {retimed : CMasterKey → Nat}

theorem changeKeys_none (nothing : w.opened crypto rules pass records = none) :
    changeKeys crypto rules fWasLocked pass new retimed records w.relock = (false,w.relock) := by
  induction records with
  | nil => rfl
  | cons e rest ih =>
    obtain ⟨id',r'⟩ := e
    cases found : r'.material rules pass with
    | none => simp [changeKeys,found]
    | some m' =>
      have rejects : accepts crypto w.toCCryptoKeyStore m' = false := by
        by_contra takes
        rw [Bool.not_eq_false,accepts] at takes
        simp [opened,found,takes] at nothing
      have stays : w.relock.toCCryptoKeyStore.Unlock crypto m' = (false,w.toCCryptoKeyStore.Lock.2) := by
        rw [relock,Unlock_locked,if_neg (by simp [rejects])]
      rw [accepts] at rejects
      simp only [opened,found,rejects,Bool.false_eq_true,if_false] at nothing
      simp only [changeKeys,found,stays]
      exact ih nothing

theorem changeKeys_some (first : w.opened crypto rules pass records = some (id,r,m)) :
    changeKeys crypto rules fWasLocked pass new retimed records w.relock = rewrap rules fWasLocked new retimed id r m
      {w with toCCryptoKeyStore := {w.toCCryptoKeyStore with fUseCrypto := true,vMasterKey := m}} := by
  induction records with
  | nil => simp [opened] at first
  | cons e rest ih =>
    obtain ⟨id',r'⟩ := e
    cases found : r'.material rules pass with
    | none => simp [opened,found] at first
    | some m' =>
      cases takes : accepts crypto w.toCCryptoKeyStore m' with
      | true =>
        have unlocks : w.relock.toCCryptoKeyStore.Unlock crypto m' = (true,{w.toCCryptoKeyStore with fUseCrypto := true,vMasterKey := m'}) := by
          rw [relock,Unlock_locked,if_pos takes]
        rw [accepts] at takes
        simp only [opened,found,takes,if_true,Option.some.injEq,Prod.mk.injEq] at first
        obtain ⟨rfl,rfl,rfl⟩ := first
        simp only [changeKeys,found,unlocks]
        rfl
      | false =>
        have stays : w.relock.toCCryptoKeyStore.Unlock crypto m' = (false,w.toCCryptoKeyStore.Lock.2) := by
          rw [relock,Unlock_locked,if_neg (by simp [takes])]
        rw [accepts] at takes
        simp only [opened,found,takes,Bool.false_eq_true,if_false] at first
        simp only [changeKeys,found,stays]
        exact ih first

/-- The record of the opened master key, encrypted under the new passphrase. -/
theorem rewrap_done (exact' : rules.Exact) (given : r.material rules pass = some m) :
    ∃ key, (retime retimed r).SetKeyFromPassphrase rules new = some key ∧
      rewrap rules fWasLocked new retimed id r m w = (true,
        if fWasLocked then {w with mapMasterKeys := w.mapMasterKeys.insert id {retime retimed r with vchCryptedKey := (rules.Encrypt key m).2}}.relock
        else {w with mapMasterKeys := w.mapMasterKeys.insert id {retime retimed r with vchCryptedKey := (rules.Encrypt key m).2}}) := by
  obtain ⟨old,set,-⟩ := material_some exact' given
  have guards : ¬ r.vchSalt.length ≠ WALLET_CRYPTO_SALT_SIZE ∧ r.nDerivationMethod = 0 := by
    rw [CMasterKey.SetKeyFromPassphrase] at set
    split_ifs at set with short method
    push Not at short
    exact ⟨by simp [short.2],method⟩
  have rounds : ¬ (retime retimed r).nDeriveIterations < 1 := by
    rw [retime]
    dsimp only
    split <;> omega
  obtain ⟨key,derived⟩ := Option.isSome_iff_exists.mp (exact'.derives new r.vchSalt (retime retimed r).nDeriveIterations)
  have set' : (retime retimed r).SetKeyFromPassphrase rules new = some key := by
    have salt : ¬ (retime retimed r).vchSalt.length ≠ WALLET_CRYPTO_SALT_SIZE := guards.1
    have method : (retime retimed r).nDerivationMethod = 0 := guards.2
    rw [CMasterKey.SetKeyFromPassphrase,if_neg (by tauto),if_pos method]
    exact derived
  have encrypts := exact'.encrypts key m
  refine ⟨key,set',?_⟩
  rw [rewrap]
  simp only [set',encrypts,Bool.not_true,Bool.false_eq_true,if_false]

end

end

/-! ### The call -/

section
variable {w : MasterWallet}

theorem relock_IsLocked : w.relock.IsLocked = (lockable w.toCCryptoKeyStore || w.IsLocked) := by
  rw [relock,Lock_eq]
  cases able : lockable w.toCCryptoKeyStore with
  | true => rfl
  | false => simp

/-- After `Lock` a passphrase unlocks the wallet just when it opens a record. -/
theorem Unlock_relock (able : lockable w.toCCryptoKeyStore = true) (pass : Text) :
    (w.relock.Unlock crypto rules pass).1 = (w.opened crypto rules pass w.mapMasterKeys.toList).isSome := by
  have locked : w.relock.IsLocked = true := by rw [relock_IsLocked,able,Bool.true_or]
  rw [Unlock,locked]
  exact tryKeys_locked w.mapMasterKeys.toList

/-- What a call leaves that found a record: the new one in its place, and the lock as it was
    unless the master key is empty. -/
structure Rewrapped (crypto : CryptoRules) (rules : PassphraseRules) (w w' : MasterWallet) (id : Nat) (r' : CMasterKey) (m : CKeyingMaterial)
    (new : Text) : Prop where
  keys : w'.mapMasterKeys = w.mapMasterKeys.insert id r'
  gives : r'.material rules new = some m
  takes : ∀ m', accepts crypto w'.toCCryptoKeyStore m' = verified crypto w.toCCryptoKeyStore m'
  able : lockable w'.toCCryptoKeyStore = true
  locked : w'.IsLocked = (w.IsLocked || m.isEmpty)

theorem exists_rewrapped {old new : Text} {retimed : CMasterKey → Nat} {id : Nat} {r : CMasterKey} {m : CKeyingMaterial} (exact' : rules.Exact)
    (first : w.opened crypto rules old w.mapMasterKeys.toList = some (id,r,m)) :
    ∃ w' r', w.ChangeWalletPassphrase crypto rules old new retimed = (true,w') ∧ Rewrapped crypto rules w w' id r' m new := by
  obtain ⟨before,after,-,-,given,takes⟩ := opened_iff.mp first
  obtain ⟨key,set,done⟩ := @rewrap_done rules {w with toCCryptoKeyStore := {w.toCCryptoKeyStore with fUseCrypto := true,vMasterKey := m}}
    old id r m w.IsLocked new retimed exact' given
  have gives : ({retime retimed r with vchCryptedKey := (rules.Encrypt key m).2} : CMasterKey).material rules new = some m := by
    have same : ({retime retimed r with vchCryptedKey := (rules.Encrypt key m).2} : CMasterKey).SetKeyFromPassphrase rules new = some key := set
    rw [CMasterKey.material,same]
    exact (exact'.inverted key _ m).mpr rfl
  rw [ChangeWalletPassphrase,changeKeys_some first,done]
  refine ⟨_,{retime retimed r with vchCryptedKey := (rules.Encrypt key m).2},rfl,?_⟩
  cases was : w.IsLocked with
  | true =>
    refine ⟨rfl,gives,fun m' => ?_,rfl,?_⟩
    · rw [accepts_eq]
      rfl
    · rw [was]
      rfl
  | false =>
    refine ⟨rfl,gives,fun m' => ?_,rfl,?_⟩
    · rw [accepts_eq]
      rfl
    · rw [was]
      rfl

/-- The new passphrase unlocks the wallet when nothing before the new record is in its way. -/
theorem Rewrapped.unlocks_iff {w' : MasterWallet} {old new : Text} {id : Nat} {r r' : CMasterKey} {m : CKeyingMaterial} (exact' : rules.Exact)
    (first : w.opened crypto rules old w.mapMasterKeys.toList = some (id,r,m)) (done : Rewrapped crypto rules w w' id r' m new) :
    (w'.relock.Unlock crypto rules new).1 = true ↔ w.mapMasterKeys.toList.head?.map Prod.fst = some id ∨ new = old := by
  obtain ⟨before,after,entries,passed,-,takes⟩ := opened_iff.mp first
  rw [Unlock_relock done.able,done.keys,Maps.toList_insert entries r']
  have able : lockable w.toCCryptoKeyStore = true := by
    rw [accepts_eq,Bool.and_eq_true] at takes
    exact takes.1
  have same : ∀ m', accepts crypto w'.toCCryptoKeyStore m' = accepts crypto w.toCCryptoKeyStore m' := by
    intro m'
    rw [done.takes,accepts_eq,able,Bool.true_and]
  cases before with
  | nil =>
    have opens : w'.opened crypto rules new ([] ++ (id,r') :: after) = some (id,r',m) :=
      opened_iff.mpr ⟨[],after,rfl,by simp,done.gives,by rw [same,takes]⟩
    rw [opens,entries]
    simp
  | cons e before =>
    have ahead : compare e.1 id = .lt := by
      have ordered : ((e :: before) ++ (id,r) :: after).Pairwise fun a b => compare a.1 b.1 = .lt := entries ▸ ExtTreeMap.ordered_keys_toList
      exact (List.pairwise_append.mp ordered).2.2 e (List.mem_cons_self ..) (id,r) (List.mem_cons_self ..)
    have apart : e.1 ≠ id := by
      rintro equal
      rw [equal,Std.ReflOrd.compare_self] at ahead
      contradiction
    rw [entries]
    simp only [List.cons_append,List.head?_cons,Option.map_some,Option.some.injEq,apart,false_or]
    constructor
    · intro opens
      by_contra other
      obtain ⟨m',given,-⟩ := passed e (List.mem_cons_self ..)
      rw [opened_none_of_head (material_other exact' given (Ne.symm other))] at opens
      contradiction
    · rintro rfl
      have opens : w'.opened crypto rules new ((e :: before) ++ (id,r') :: after) = some (id,r',m) := by
        refine opened_iff.mpr ⟨e :: before,after,rfl,fun e' member => ?_,done.gives,by rw [same,takes]⟩
        obtain ⟨m',given,rejects⟩ := passed e' member
        exact ⟨m',given,by rw [same,rejects]⟩
      rw [List.cons_append] at opens
      rw [opens]
      rfl

/-- The old passphrase does not open the new record. -/
theorem Rewrapped.closed {w' : MasterWallet} {old new : Text} {id : Nat} {r' : CMasterKey} {m : CKeyingMaterial} (exact' : rules.Exact)
    (done : Rewrapped crypto rules w w' id r' m new) (other : old ≠ new) {id' : Nat} {r'' : CMasterKey} (here : w'.mapMasterKeys[id']? = some r'')
    (changed : w.mapMasterKeys[id']? ≠ some r'') : w'.opens crypto rules old r'' = false := by
  rw [done.keys] at here
  rcases Maps.insert_some_iff.mp here with ⟨rfl,rfl⟩ | ⟨-,kept⟩
  · rw [opens,material_other exact' done.gives (Ne.symm other)]
  · exact absurd kept changed

/-- The call is atomic just when the old passphrase opens the first record (or is kept), and
    otherwise the wallet was locked already or cannot be. -/
theorem ChangeWalletPassphrase_atomic_iff (exact' : rules.Exact) (w : MasterWallet) (old new : Text) (retimed : CMasterKey → Nat) :
    w.Atomic crypto rules old new retimed ↔ w.Restores crypto rules old new := by
  rw [Atomic,Restores]
  cases first : w.opened crypto rules old w.mapMasterKeys.toList with
  | none =>
    have done : w.ChangeWalletPassphrase crypto rules old new retimed = (false,w.relock) := by
      rw [ChangeWalletPassphrase,changeKeys_none first]
    have kept : w.relock.mapMasterKeys = w.mapMasterKeys := rfl
    simp only [done,Bool.false_eq_true,if_false,relock_IsLocked,kept,and_true]
    rw [lockable]
    cases crypted : w.fUseCrypto with
    | true => cases w.IsLocked <;> simp
    | false =>
      have unlocked : w.IsLocked = false := by simp [CCryptoKeyStore.IsLocked,CCryptoKeyStore.IsCrypted,crypted]
      cases w.mapKeys.isEmpty <;> simp [unlocked]
  | some found =>
    obtain ⟨id,r,m⟩ := found
    obtain ⟨w',r',done,rewrapped⟩ := @exists_rewrapped crypto rules w old new retimed id r m exact' first
    simp only [done,if_true]
    rw [rewrapped.unlocks_iff exact' first,rewrapped.locked]
    have closed : old ≠ new → ∀ (id : Nat) (r : CMasterKey), w'.mapMasterKeys[id]? = some r → w.mapMasterKeys[id]? ≠ some r →
        w'.opens crypto rules old r = false := fun other _ _ here changed => rewrapped.closed exact' other here changed
    have lock : (w.IsLocked || m.isEmpty) = w.IsLocked ↔ w.IsLocked = true ∨ m ≠ [] := by
      cases w.IsLocked <;> cases m <;> simp
    rw [lock]
    refine ⟨?_,?_⟩
    · rintro ⟨unlocks,-,keeps⟩
      exact ⟨unlocks,keeps⟩
    · rintro ⟨unlocks,keeps⟩
      exact ⟨unlocks,closed,keeps⟩

end

end

/-! ### A wallet with one master key -/

/-- A text with its end marked. -/
private def marked : List UInt8 → List UInt8
  | [] => [0]
  | byte :: rest => 1 :: byte :: marked rest

private theorem marked_inj {a b x y : List UInt8} (same : marked a ++ x = marked b ++ y) : a = b ∧ x = y := by
  induction a generalizing b with
  | nil =>
    cases b with
    | nil => exact ⟨rfl,by simpa [marked] using same⟩
    | cons byte rest => simp [marked] at same
  | cons byte rest ih =>
    cases b with
    | nil => simp [marked] at same
    | cons byte' rest' =>
      simp only [marked,List.cons_append,List.cons.injEq,true_and] at same
      obtain ⟨rfl,tails⟩ := same
      obtain ⟨rfl,left⟩ := ih tails
      exact ⟨rfl,left⟩

private def sampleHead (key : DerivedKey) : List UInt8 := marked key.1 ++ marked key.2

/-- The passphrase is the key, and a key stands in front of what it encrypts. -/
private def sampleRules : PassphraseRules where
  EVP_BytesToKey pass _ _ := some (pass,[])
  Encrypt key m := (true,sampleHead key ++ m)
  Decrypt key c := if (sampleHead key).isPrefixOf c then some (c.drop (sampleHead key).length) else none

private theorem sampleRules_exact : sampleRules.Exact where
  derives _ _ _ := rfl
  injective pass pass' salt n same := by simpa [sampleRules] using same
  encrypts _ _ := rfl
  inverted key c m := by
    simp only [sampleRules]
    constructor
    · intro found
      split at found
      · next front =>
        obtain ⟨rest,rfl⟩ := List.isPrefixOf_iff_prefix.mp front
        simpa using (Option.some.inj found).symm
      · contradiction
    · rintro rfl
      rw [if_pos (List.isPrefixOf_iff_prefix.mpr (List.prefix_append ..)),List.drop_left]
  own key key' m m' same := by
    simp only [sampleRules,sampleHead,List.append_assoc] at same
    obtain ⟨first,rest⟩ := marked_inj same
    obtain ⟨second,-⟩ := marked_inj rest
    exact Prod.ext first second

/-- The public key has the secret behind one byte, and nothing is encrypted. -/
private def sampleCrypto : CryptoRules where
  publicKey vch _ := 2 :: vch
  Hash160 _ := 0
  Hash _ := 0
  Encrypt _ _ m := some m
  Decrypt _ _ c := some c

private def sampleMaster : CKeyingMaterial := List.replicate 32 5

/-- An unlocked wallet with one key, whose master key the passphrase "a" opens. -/
private def sampleWallet : MasterWallet where
  mapCryptedKeys := (∅ : ExtTreeMap CKeyID (CPubKey × List UInt8)).insert 0 (2 :: List.replicate 32 1,List.replicate 32 1)
  vMasterKey := sampleMaster
  fUseCrypto := true
  mapMasterKeys := (∅ : ExtTreeMap Nat CMasterKey).insert 1 {vchCryptedKey := sampleHead ([97],[]) ++ sampleMaster,vchSalt := List.replicate 8 0}

/-- The passphrase of the only record is changed. -/
theorem change_atomic : sampleWallet.Atomic sampleCrypto sampleRules [97] [98] fun _ => 30000 := by
  refine (ChangeWalletPassphrase_atomic_iff sampleRules_exact sampleWallet [97] [98] fun _ => 30000).mpr ?_
  have first : sampleWallet.opened sampleCrypto sampleRules [97] sampleWallet.mapMasterKeys.toList =
      some (1,{vchCryptedKey := sampleHead ([97],[]) ++ sampleMaster,vchSalt := List.replicate 8 0},sampleMaster) := by decide +kernel
  rw [Restores,first]
  exact ⟨.inl (by decide +kernel),.inr (by decide)⟩

/-- With a wrong old passphrase the call fails and leaves the wallet locked. -/
theorem change_locks : ∃ (crypto : CryptoRules) (rules : PassphraseRules) (w : MasterWallet) (old new : Text) (retimed : CMasterKey → Nat),
    rules.Exact ∧ w.IsLocked = false ∧ (w.ChangeWalletPassphrase crypto rules old new retimed).1 = false ∧
      (w.ChangeWalletPassphrase crypto rules old new retimed).2.IsLocked = true ∧ ¬ w.Atomic crypto rules old new retimed := by
  have unlocked : sampleWallet.IsLocked = false := by decide +kernel
  have fails : (sampleWallet.ChangeWalletPassphrase sampleCrypto sampleRules [98] [99] fun _ => 30000).1 = false := by decide +kernel
  have locked : (sampleWallet.ChangeWalletPassphrase sampleCrypto sampleRules [98] [99] fun _ => 30000).2.IsLocked = true := by decide +kernel
  refine ⟨sampleCrypto,sampleRules,sampleWallet,[98],[99],fun _ => 30000,sampleRules_exact,unlocked,fails,locked,?_⟩
  rw [Atomic]
  simp only [fails,Bool.false_eq_true,if_false,locked,unlocked]
  simp

end MasterWallet
end Tetra
