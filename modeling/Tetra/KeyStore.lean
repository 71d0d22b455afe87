import Mathlib
import Tetra.Primitives

/-!
The wallet's keys: plain in one map, or encrypted under a master key in another. The
switch to encryption is made once, and a locked store has no master key.
-/
namespace Tetra
open Std

abbrev CKeyID := Nat
abbrev CKeyingMaterial := List UInt8

/-- The last secret below the order of the curve. -/
def vchMax : List UInt8 :=
  [0xFF,0xFF,0xFF,0xFF,0xFF,0xFF,0xFF,0xFF,0xFF,0xFF,0xFF,0xFF,0xFF,0xFF,0xFF,0xFE,
    0xBA,0xAE,0xDC,0xE6,0xAF,0x48,0xA0,0x3B,0xBF,0xD2,0x5E,0x8C,0xD0,0x36,0x41,0x40]

/-- The second loop of `CKey::Check`. -/
def notAbove : List UInt8 → List UInt8 → Bool
  | a :: as, b :: bs => if a < b then true else if a > b then false else notAbove as bs
  | _, _ => true

def CKey.Check (vch : List UInt8) : Bool := if vch.all fun byte => byte == 0 then false else notAbove vch vchMax

structure CKey where
  fValid : Bool := false
  fCompressed : Bool := false
  vch : List UInt8 := []
  checked : fValid = true → vch.length = 32 ∧ CKey.Check vch = true := by decide
deriving DecidableEq

/-- What the store uses of the curve, the hashes and the cipher; each of the two cipher
    functions may fail. -/
structure CryptoRules where
  /-- `CECKey`: the public key of a secret, compressed or not. -/
  publicKey : List UInt8 → Bool → CPubKey
  Hash160 : List UInt8 → Nat
  Hash : List UInt8 → uint256
  Encrypt : CKeyingMaterial → uint256 → CKeyingMaterial → Option (List UInt8)
  Decrypt : CKeyingMaterial → uint256 → List UInt8 → Option CKeyingMaterial

def CPubKey.IsCompressed (pubkey : CPubKey) : Bool := pubkey.length == 33

namespace CKey

/-- The bytes between `begin()` and `end()`. -/
def bytes (key : CKey) : CKeyingMaterial := if key.fValid then key.vch else []

def Set (key : CKey) (secret : List UInt8) (fCompressedIn : Bool) : CKey :=
  if sized : secret.length = 32 then
    if valid : Check secret = true then ⟨true,fCompressedIn,secret,fun _ => ⟨sized,valid⟩⟩
    else {key with fValid := false,checked := fun absurd => by contradiction}
  else {key with fValid := false,checked := fun absurd => by contradiction}

/-- The public key of an invalid key is invalid. -/
def GetPubKey (crypto : CryptoRules) (key : CKey) : CPubKey :=
  if key.fValid then crypto.publicKey key.vch key.fCompressed else []

end CKey

def WALLET_CRYPTO_KEY_SIZE : Nat := 32

section
variable (crypto : CryptoRules)

def EncryptSecret (vMasterKey vchPlaintext : CKeyingMaterial) (nIV : uint256) : Option (List UInt8) :=
  if vMasterKey.length ≠ WALLET_CRYPTO_KEY_SIZE then none else crypto.Encrypt vMasterKey nIV vchPlaintext

def DecryptSecret (vMasterKey : CKeyingMaterial) (vchCiphertext : List UInt8) (nIV : uint256) : Option CKeyingMaterial :=
  if vMasterKey.length ≠ WALLET_CRYPTO_KEY_SIZE then none else crypto.Decrypt vMasterKey nIV vchCiphertext

/-- `setAddress`, filled id by id. -/
def setAddress (ids : List CKeyID) : ExtTreeSet CKeyID := ids.foldl (fun set id => set.insert id) ∅

structure CBasicKeyStore where
  mapKeys : ExtTreeMap CKeyID CKey := ∅

namespace CBasicKeyStore

def AddKeyPubKey (s : CBasicKeyStore) (key : CKey) (pubkey : CPubKey) : Bool × CBasicKeyStore :=
  (true,{mapKeys := s.mapKeys.insert (crypto.Hash160 pubkey) key})

def HaveKey (s : CBasicKeyStore) (address : CKeyID) : Bool := s.mapKeys.contains address
def GetKeys (s : CBasicKeyStore) : ExtTreeSet CKeyID := setAddress (s.mapKeys.toList.map fun e => e.1)
def GetKey (s : CBasicKeyStore) (address : CKeyID) : Option CKey := s.mapKeys[address]?

/-- `CKeyStore::GetPubKey` -/
def GetPubKey (s : CBasicKeyStore) (address : CKeyID) : Option CPubKey := (s.GetKey address).map fun key => key.GetPubKey crypto

end CBasicKeyStore

structure CCryptoKeyStore extends CBasicKeyStore where
  mapCryptedKeys : ExtTreeMap CKeyID (CPubKey × List UInt8) := ∅
  vMasterKey : CKeyingMaterial := []
  fUseCrypto : Bool := false

namespace CCryptoKeyStore

def IsCrypted (s : CCryptoKeyStore) : Bool := s.fUseCrypto
def IsLocked (s : CCryptoKeyStore) : Bool := if !s.IsCrypted then false else s.vMasterKey.isEmpty

def SetCrypted (s : CCryptoKeyStore) : Bool × CCryptoKeyStore :=
  if s.fUseCrypto then (true,s)
  else if !s.mapKeys.isEmpty then (false,s)
  else (true,{s with fUseCrypto := true})

def Lock (s : CCryptoKeyStore) : Bool × CCryptoKeyStore :=
  match s.SetCrypted with
  | (false,s) => (false,s)
  | (true,s) => (true,{s with vMasterKey := []})

/-- The turn of `Unlock` for an encrypted key; the loop never makes a second one. -/
def verifies (vMasterKeyIn : CKeyingMaterial) (entry : CPubKey × List UInt8) : Bool :=
  match DecryptSecret crypto vMasterKeyIn entry.2 (crypto.Hash entry.1) with
  | none => false
  | some vchSecret =>
    if vchSecret.length ≠ 32 then false
    else (({} : CKey).Set vchSecret (CPubKey.IsCompressed entry.1)).GetPubKey crypto == entry.1

def Unlock (s : CCryptoKeyStore) (vMasterKeyIn : CKeyingMaterial) : Bool × CCryptoKeyStore :=
  match s.SetCrypted with
  | (false,s) => (false,s)
  | (true,s) =>
    match s.mapCryptedKeys.toList.head? with
    | none => (true,{s with vMasterKey := vMasterKeyIn})
    | some (_,entry) => if verifies crypto vMasterKeyIn entry then (true,{s with vMasterKey := vMasterKeyIn}) else (false,s)

def AddCryptedKey (s : CCryptoKeyStore) (vchPubKey : CPubKey) (vchCryptedSecret : List UInt8) : Bool × CCryptoKeyStore :=
  match s.SetCrypted with
  | (false,s) => (false,s)
  | (true,s) => (true,{s with mapCryptedKeys := s.mapCryptedKeys.insert (crypto.Hash160 vchPubKey) (vchPubKey,vchCryptedSecret)})

def AddKeyPubKey (s : CCryptoKeyStore) (key : CKey) (pubkey : CPubKey) : Bool × CCryptoKeyStore :=
  if !s.IsCrypted then
    let (added,basic) := s.toCBasicKeyStore.AddKeyPubKey crypto key pubkey
    (added,{s with toCBasicKeyStore := basic})
  else if s.IsLocked then (false,s)
  else
    match EncryptSecret crypto s.vMasterKey key.bytes (crypto.Hash pubkey) with
    | none => (false,s)
    | some vchCryptedSecret => s.AddCryptedKey crypto pubkey vchCryptedSecret

def HaveKey (s : CCryptoKeyStore) (address : CKeyID) : Bool :=
  if !s.IsCrypted then s.toCBasicKeyStore.HaveKey address else s.mapCryptedKeys.contains address

def GetKeys (s : CCryptoKeyStore) : ExtTreeSet CKeyID :=
  if !s.IsCrypted then s.toCBasicKeyStore.GetKeys else setAddress (s.mapCryptedKeys.toList.map fun e => e.1)

/-- `keyOut` is a new key. -/
def GetKey (s : CCryptoKeyStore) (address : CKeyID) : Option CKey :=
  if !s.IsCrypted then s.toCBasicKeyStore.GetKey address
  else
    match s.mapCryptedKeys[address]? with
    | none => none
    | some (vchPubKey,vchCryptedSecret) =>
      match DecryptSecret crypto s.vMasterKey vchCryptedSecret (crypto.Hash vchPubKey) with
      | none => none
      | some vchSecret => if vchSecret.length ≠ 32 then none else some (({} : CKey).Set vchSecret (CPubKey.IsCompressed vchPubKey))

def GetPubKey (s : CCryptoKeyStore) (address : CKeyID) : Option CPubKey :=
  if !s.IsCrypted then s.toCBasicKeyStore.GetPubKey crypto address else s.mapCryptedKeys[address]?.map fun entry => entry.1

/-- The loop of `EncryptKeys`. -/
def encryptAll (vMasterKeyIn : CKeyingMaterial) : List (CKeyID × CKey) → CCryptoKeyStore → Bool × CCryptoKeyStore
  | [], s => (true,s)
  | (_,key) :: rest, s =>
    match EncryptSecret crypto vMasterKeyIn key.bytes (crypto.Hash (key.GetPubKey crypto)) with
    | none => (false,s)
    | some vchCryptedSecret =>
      match s.AddCryptedKey crypto (key.GetPubKey crypto) vchCryptedSecret with
      | (false,s) => (false,s)
      | (true,s) => encryptAll vMasterKeyIn rest s

def EncryptKeys (s : CCryptoKeyStore) (vMasterKeyIn : CKeyingMaterial) : Bool × CCryptoKeyStore :=
  if !s.mapCryptedKeys.isEmpty || s.IsCrypted then (false,s)
  else
    match encryptAll crypto vMasterKeyIn s.mapKeys.toList {s with fUseCrypto := true} with
    | (false,s) => (false,s)
    | (true,s) => (true,{s with mapKeys := ∅})

end CCryptoKeyStore

/-- Every key comes with its own public key. -/
inductive KeyCall
  | AddKeyPubKey (key : CKey)
  | EncryptKeys (vMasterKeyIn : CKeyingMaterial)
  | Lock
  | Unlock (vMasterKeyIn : CKeyingMaterial)

namespace CCryptoKeyStore

def act (s : CCryptoKeyStore) : KeyCall → Bool × CCryptoKeyStore
  | .AddKeyPubKey key => s.AddKeyPubKey crypto key (key.GetPubKey crypto)
  | .EncryptKeys vMasterKeyIn => s.EncryptKeys crypto vMasterKeyIn
  | .Lock => s.Lock
  | .Unlock vMasterKeyIn => s.Unlock crypto vMasterKeyIn

/-- A call, beside a plain store that takes every key that was added. -/
def step (both : CCryptoKeyStore × CBasicKeyStore) (call : KeyCall) : CCryptoKeyStore × CBasicKeyStore :=
  let (done,s) := both.1.act crypto call
  match call with
  | .AddKeyPubKey key => (s,if done then (both.2.AddKeyPubKey crypto key (key.GetPubKey crypto)).2 else both.2)
  | _ => (s,both.2)

/-- A key of the wallet file, with its secret encrypted. -/
def loadKey (both : CCryptoKeyStore × CBasicKeyStore) (entry : CKey × List UInt8) : CCryptoKeyStore × CBasicKeyStore :=
  let pubkey := entry.1.GetPubKey crypto
  let (done,s) := both.1.AddCryptedKey crypto pubkey entry.2
  (s,if done then (both.2.AddKeyPubKey crypto entry.1 pubkey).2 else both.2)

def load (entries : List (CKey × List UInt8)) : CCryptoKeyStore × CBasicKeyStore := entries.foldl (loadKey crypto) ({},{})

def run (entries : List (CKey × List UInt8)) (calls : List KeyCall) : CCryptoKeyStore × CBasicKeyStore :=
  calls.foldl (step crypto) (load crypto entries)

end CCryptoKeyStore
end

section
variable {crypto : CryptoRules}

/-- What the store relies on: encryption succeeds under a master key of the right size, is
    undone under the same one, and gives no secret of the same public key under another;
    and a public key has the form it was asked for. -/
structure CryptoRules.Lawful (crypto : CryptoRules) : Prop where
  encrypts : ∀ master iv plain, master.length = WALLET_CRYPTO_KEY_SIZE → crypto.Encrypt master iv plain ≠ none
  inverts : ∀ master iv plain secret, EncryptSecret crypto master plain iv = some secret → DecryptSecret crypto master secret iv = some plain
  apart : ∀ (key : CKey) master other secret, key.fValid = true → other ≠ master →
    EncryptSecret crypto master key.bytes (crypto.Hash (key.GetPubKey crypto)) = some secret →
    ∀ wrong, DecryptSecret crypto other secret (crypto.Hash (key.GetPubKey crypto)) = some wrong →
      (({} : CKey).Set wrong (CPubKey.IsCompressed (key.GetPubKey crypto))).GetPubKey crypto ≠ key.GetPubKey crypto
  form : ∀ secret fCompressed, secret.length = 32 → CKey.Check secret = true → CPubKey.IsCompressed (crypto.publicKey secret fCompressed) = fCompressed

theorem CKey.Set_bytes (lawful : crypto.Lawful) {key : CKey} (valid : key.fValid = true) :
    key.bytes.length = 32 ∧ ({} : CKey).Set key.bytes (CPubKey.IsCompressed (key.GetPubKey crypto)) = key := by
  obtain ⟨fValid,fCompressed,vch,checked⟩ := key
  obtain rfl : fValid = true := valid
  obtain ⟨sized,passes⟩ := checked rfl
  have pressed : CPubKey.IsCompressed (CKey.GetPubKey crypto ⟨true,fCompressed,vch,checked⟩) = fCompressed := lawful.form vch fCompressed sized passes
  refine ⟨sized,?_⟩
  rw [pressed]
  show CKey.Set {} vch fCompressed = _
  rw [CKey.Set,dif_pos sized,dif_pos passes]

theorem mem_setAddress {ids : List CKeyID} {id : CKeyID} : id ∈ setAddress ids ↔ id ∈ ids := by
  have fill : ∀ set : ExtTreeSet CKeyID, id ∈ ids.foldl (fun set id => set.insert id) set ↔ id ∈ set ∨ id ∈ ids := by
    induction ids with
    | nil => simp
    | cons first rest ih =>
      intro set
      rw [List.foldl_cons,ih,ExtTreeSet.mem_insert,Std.compare_eq_iff_eq,List.mem_cons]
      constructor
      · rintro ((rfl | inside) | later)
        · exact .inr (.inl rfl)
        · exact .inl inside
        · exact .inr (.inr later)
      · rintro (inside | rfl | later)
        · exact .inl (.inr inside)
        · exact .inl (.inl rfl)
        · exact .inr later
  rw [setAddress,fill]
  constructor
  · rintro (inside | listed)
    · exact absurd inside ExtTreeSet.not_mem_empty
    · exact listed
  · exact .inr

theorem mem_setAddress_keys {α : Type} {map : ExtTreeMap CKeyID α} {id : CKeyID} :
    id ∈ setAddress (map.toList.map fun e => e.1) ↔ map[id]? ≠ none := by
  rw [mem_setAddress,List.mem_map]
  constructor
  · rintro ⟨⟨id,value⟩,member,rfl⟩
    rw [ExtTreeMap.mem_toList_iff_getElem?_eq_some.mp member]
    exact Option.some_ne_none _
  · intro present
    obtain ⟨value,found⟩ := Option.ne_none_iff_exists'.mp present
    exact ⟨(id,value),ExtTreeMap.mem_toList_iff_getElem?_eq_some.mpr found,rfl⟩

theorem keys_insert {α : Type} {map : ExtTreeMap CKeyID α} {a b : CKeyID} {value : α} :
    (map.insert a value)[b]? = if a = b then some value else map[b]? := by
  rw [ExtTreeMap.getElem?_insert]
  simp only [Std.compare_eq_iff_eq]

namespace CCryptoKeyStore

/-- The record of a key, under a master key. -/
def Sealed (crypto : CryptoRules) (master : CKeyingMaterial) : Option CKey → Option (CPubKey × List UInt8) → Prop
  | none, none => True
  | some key, some (pubkey,secret) =>
    pubkey = key.GetPubKey crypto ∧ EncryptSecret crypto master key.bytes (crypto.Hash (key.GetPubKey crypto)) = some secret
  | _, _ => False

/-- The keys of a plain store are valid, each under its own id. -/
def Own (crypto : CryptoRules) (plain : CBasicKeyStore) : Prop :=
  ∀ (id : CKeyID) key, plain.mapKeys[id]? = some key → key.fValid = true ∧ crypto.Hash160 (key.GetPubKey crypto) = id

/-- The store beside the plain one: the same map before the switch to encryption, and after
    it a record for each key, all under one master key. -/
structure Mirrors (crypto : CryptoRules) (s : CCryptoKeyStore) (plain : CBasicKeyStore) : Prop where
  own : Own crypto plain
  unused : s.fUseCrypto = false → s.mapKeys = plain.mapKeys ∧ s.mapCryptedKeys = ∅ ∧ s.vMasterKey = []
  used : s.fUseCrypto = true → s.mapKeys = ∅ ∧ ∃ master, (s.vMasterKey = [] ∨ s.vMasterKey = master) ∧
    ∀ id : CKeyID, Sealed crypto master plain.mapKeys[id]? s.mapCryptedKeys[id]?

variable {s : CCryptoKeyStore} {plain : CBasicKeyStore} {master : CKeyingMaterial}

theorem mirrors_of_used (own : Own crypto plain) (used : s.fUseCrypto = true) (empty : s.mapKeys = ∅)
    (which : s.vMasterKey = [] ∨ s.vMasterKey = master)
    (records : ∀ id : CKeyID, Sealed crypto master plain.mapKeys[id]? s.mapCryptedKeys[id]?) : Mirrors crypto s plain := by
  refine ⟨own,fun unused => ?_,fun _ => ⟨empty,master,which,records⟩⟩
  rw [used] at unused
  contradiction

theorem Sealed.none_iff {key : Option CKey} {entry : Option (CPubKey × List UInt8)} (isSealed : Sealed crypto master key entry) :
    entry = none ↔ key = none := by
  cases key <;> cases entry <;> simp_all [Sealed]

theorem DecryptSecret_nil (secret : List UInt8) (nIV : uint256) : DecryptSecret crypto [] secret nIV = none := by
  rw [DecryptSecret,if_pos]
  decide

theorem SetCrypted_used (used : s.fUseCrypto = true) : s.SetCrypted = (true,s) := by
  rw [SetCrypted,if_pos used]

/-! ### The answers -/

theorem Mirrors.HaveKey (mirrors : Mirrors crypto s plain) (address : CKeyID) : s.HaveKey address = plain.HaveKey address := by
  unfold CCryptoKeyStore.HaveKey IsCrypted
  cases use : s.fUseCrypto with
  | false => exact congrArg (fun map : ExtTreeMap CKeyID CKey => map.contains address) (mirrors.unused use).1
  | true =>
    obtain ⟨_,_,_,records⟩ := mirrors.used use
    have same := (records address).none_iff
    show s.mapCryptedKeys.contains address = plain.mapKeys.contains address
    rw [ExtTreeMap.contains_eq_isSome_getElem?,ExtTreeMap.contains_eq_isSome_getElem?]
    cases here : s.mapCryptedKeys[address]? <;> cases there : plain.mapKeys[address]? <;> simp_all

theorem Mirrors.GetKeys (mirrors : Mirrors crypto s plain) : s.GetKeys = plain.GetKeys := by
  unfold CCryptoKeyStore.GetKeys IsCrypted
  cases use : s.fUseCrypto with
  | false => exact congrArg (fun map : ExtTreeMap CKeyID CKey => setAddress (map.toList.map fun e => e.1)) (mirrors.unused use).1
  | true =>
    obtain ⟨_,_,_,records⟩ := mirrors.used use
    apply ExtTreeSet.ext_mem
    intro id
    show id ∈ setAddress (s.mapCryptedKeys.toList.map fun e => e.1) ↔ id ∈ setAddress (plain.mapKeys.toList.map fun e => e.1)
    rw [mem_setAddress_keys,mem_setAddress_keys,Ne,Ne,(records id).none_iff]

theorem Mirrors.GetPubKey (mirrors : Mirrors crypto s plain) (address : CKeyID) :
    s.GetPubKey crypto address = plain.GetPubKey crypto address := by
  unfold CCryptoKeyStore.GetPubKey IsCrypted
  cases use : s.fUseCrypto with
  | false => exact congrArg (fun map : ExtTreeMap CKeyID CKey => map[address]?.map (CKey.GetPubKey crypto)) (mirrors.unused use).1
  | true =>
    obtain ⟨_,_,_,records⟩ := mirrors.used use
    have record := records address
    show s.mapCryptedKeys[address]?.map _ = plain.mapKeys[address]?.map _
    cases here : s.mapCryptedKeys[address]? <;> cases there : plain.mapKeys[address]? <;> rw [here,there] at record
    · rfl
    · exact absurd record not_false
    · exact absurd record not_false
    · exact congrArg some record.1

theorem Mirrors.GetKey (lawful : crypto.Lawful) (mirrors : Mirrors crypto s plain) (open' : s.IsLocked = false) (address : CKeyID) :
    s.GetKey crypto address = plain.GetKey address := by
  unfold CCryptoKeyStore.GetKey IsCrypted
  unfold IsLocked IsCrypted at open'
  cases use : s.fUseCrypto with
  | false => exact congrArg (fun map : ExtTreeMap CKeyID CKey => map[address]?) (mirrors.unused use).1
  | true =>
    obtain ⟨_,master,which,records⟩ := mirrors.used use
    rw [use] at open'
    have isMaster : s.vMasterKey = master := by
      rcases which with locked | same
      · rw [locked] at open'
        contradiction
      · exact same
    have record := records address
    show _ = plain.mapKeys[address]?
    cases here : s.mapCryptedKeys[address]? <;> cases there : plain.mapKeys[address]? <;> rw [here,there] at record
    · rfl
    · exact absurd record not_false
    · exact absurd record not_false
    next entry key =>
      obtain ⟨pubkey,secret⟩ := entry
      obtain ⟨rfl,encrypted⟩ := record
      obtain ⟨sized,same⟩ := CKey.Set_bytes lawful (mirrors.own address key there).1
      simp only [Bool.not_true,Bool.false_eq_true,if_false,isMaster,lawful.inverts _ _ _ _ encrypted,ne_eq,sized,not_true,same]

theorem GetKey_locked (locked : s.IsLocked = true) (address : CKeyID) :
    s.GetKey crypto address = none := by
  unfold IsLocked IsCrypted at locked
  unfold CCryptoKeyStore.GetKey IsCrypted
  cases use : s.fUseCrypto with
  | false =>
    rw [use] at locked
    contradiction
  | true =>
    rw [use] at locked
    have empty : s.vMasterKey = [] := List.isEmpty_iff.mp locked
    simp only [Bool.not_true,Bool.false_eq_true,if_false,empty,DecryptSecret_nil]
    split <;> rfl

/-! ### The calls -/

/-- The keys are valid; and where the keys of the plain map are encrypted, the master key has the right size. -/
def Proper (s : CCryptoKeyStore) : KeyCall → Bool
  | .AddKeyPubKey key => key.fValid
  | .EncryptKeys vMasterKeyIn => s.IsCrypted || s.mapKeys.isEmpty || vMasterKeyIn.length == WALLET_CRYPTO_KEY_SIZE
  | _ => true

theorem Own.add (own : Own crypto plain) {key : CKey} (valid : key.fValid = true) :
    Own crypto (plain.AddKeyPubKey crypto key (key.GetPubKey crypto)).2 := by
  intro id other found
  change (plain.mapKeys.insert _ key)[id]? = some other at found
  rw [keys_insert] at found
  split at found
  next here =>
    cases found
    exact ⟨valid,here⟩
  · exact own id other found

theorem AddCryptedKey_done (empty : s.mapKeys = ∅) (pubkey : CPubKey) (secret : List UInt8) :
    s.AddCryptedKey crypto pubkey secret =
      (true,{s with fUseCrypto := true,mapCryptedKeys := s.mapCryptedKeys.insert (crypto.Hash160 pubkey) (pubkey,secret)}) := by
  unfold AddCryptedKey SetCrypted
  cases use : s.fUseCrypto
  · rw [empty]
    rfl
  · obtain ⟨basic,crypted,vMasterKey,fUseCrypto⟩ := s
    obtain rfl : fUseCrypto = true := use
    rfl

/-- A new record under the master key, beside its key. -/
theorem sealed_insert (records : ∀ id : CKeyID, Sealed crypto master plain.mapKeys[id]? s.mapCryptedKeys[id]?) {key : CKey}
    {secret : List UInt8} (encrypted : EncryptSecret crypto master key.bytes (crypto.Hash (key.GetPubKey crypto)) = some secret)
    (place : CKeyID) (id : CKeyID) :
    Sealed crypto master (plain.mapKeys.insert place key)[id]? (s.mapCryptedKeys.insert place (key.GetPubKey crypto,secret))[id]? := by
  rw [keys_insert,keys_insert]
  split
  · exact ⟨rfl,encrypted⟩
  · exact records id

theorem encryptAll_all (lawful : crypto.Lawful) {list : List (CKeyID × CKey)}
    (able : list = [] ∨ master.length = WALLET_CRYPTO_KEY_SIZE) (own : ∀ e ∈ list, crypto.Hash160 (e.2.GetPubKey crypto) = e.1)
    (used : s.fUseCrypto = true) :
    ∃ crypted, encryptAll crypto master list s = (true,{s with mapCryptedKeys := crypted}) ∧
      ∀ id : CKeyID, (∃ key, (id,key) ∈ list ∧ Sealed crypto master (some key) crypted[id]?) ∨
        (∀ key, (id,key) ∉ list) ∧ crypted[id]? = s.mapCryptedKeys[id]? := by
  induction list generalizing s with
  | nil => exact ⟨s.mapCryptedKeys,rfl,fun id => .inr ⟨fun _ => List.not_mem_nil,rfl⟩⟩
  | cons e rest ih =>
    obtain ⟨first,key⟩ := e
    have sized : master.length = WALLET_CRYPTO_KEY_SIZE := able.resolve_left (List.cons_ne_nil _ _)
    obtain ⟨secret,encrypted⟩ : ∃ secret, EncryptSecret crypto master key.bytes (crypto.Hash (key.GetPubKey crypto)) = some secret := by
      rw [EncryptSecret,if_neg (not_not.mpr sized)]
      exact Option.ne_none_iff_exists'.mp (lawful.encrypts _ _ _ sized)
    have id_first : crypto.Hash160 (key.GetPubKey crypto) = first := own (first,key) (List.mem_cons_self ..)
    obtain ⟨crypted,done,all⟩ := @ih {s with mapCryptedKeys := s.mapCryptedKeys.insert first (key.GetPubKey crypto,secret)} (.inr sized)
      (fun e member => own e (List.mem_cons_of_mem _ member)) used
    refine ⟨crypted,?_,?_⟩
    · rw [encryptAll,encrypted]
      dsimp only
      rw [AddCryptedKey,SetCrypted_used used,id_first]
      exact done
    · intro id
      rcases all id with ⟨later,member,isSealed⟩ | ⟨absent,kept⟩
      · exact .inl ⟨later,List.mem_cons_of_mem _ member,isSealed⟩
      · rw [keys_insert] at kept
        by_cases same : first = id
        · subst same
          rw [if_pos rfl] at kept
          rw [kept]
          exact .inl ⟨key,List.mem_cons_self ..,rfl,encrypted⟩
        · rw [if_neg same] at kept
          refine .inr ⟨?_,kept⟩
          intro other member
          rcases List.mem_cons.mp member with isFirst | later
          · exact same (congrArg Prod.fst isFirst).symm
          · exact absent other later

theorem SetCrypted_cases (s : CCryptoKeyStore) :
    s.SetCrypted = (true,{s with fUseCrypto := true}) ∧ (s.fUseCrypto = true ∨ s.mapKeys = ∅) ∨ s.SetCrypted = (false,s) := by
  unfold SetCrypted
  cases use : s.fUseCrypto with
  | true =>
    left
    obtain ⟨basic,crypted,vMasterKey,fUseCrypto⟩ := s
    obtain rfl : fUseCrypto = true := use
    exact ⟨rfl,.inl rfl⟩
  | false =>
    rw [if_neg Bool.false_ne_true]
    split
    · exact .inr rfl
    next empty => exact .inl ⟨rfl,.inr (ExtTreeMap.isEmpty_iff.mp (by simpa using empty))⟩

/-- The switch itself changes no answer. -/
theorem Mirrors.switch (mirrors : Mirrors crypto s plain) (able : s.fUseCrypto = true ∨ s.mapKeys = ∅) :
    ∃ master, (s.vMasterKey = [] ∨ s.vMasterKey = master) ∧ s.mapKeys = ∅ ∧
      ∀ id : CKeyID, Sealed crypto master plain.mapKeys[id]? s.mapCryptedKeys[id]? := by
  cases use : s.fUseCrypto with
  | true =>
    obtain ⟨empty,master,which,records⟩ := mirrors.used use
    exact ⟨master,which,empty,records⟩
  | false =>
    obtain ⟨same,none',locked⟩ := mirrors.unused use
    have empty : s.mapKeys = ∅ := able.resolve_left (by rw [use]; decide)
    refine ⟨[],.inl locked,empty,fun id => ?_⟩
    rw [← same,empty,none',ExtTreeMap.getElem?_empty,ExtTreeMap.getElem?_empty]
    trivial

theorem Mirrors.Lock (mirrors : Mirrors crypto s plain) : Mirrors crypto s.Lock.2 plain := by
  unfold CCryptoKeyStore.Lock
  rcases SetCrypted_cases s with ⟨done,able⟩ | refused
  · rw [done]
    obtain ⟨master,_,empty,records⟩ := mirrors.switch able
    exact mirrors_of_used mirrors.own rfl empty (.inl rfl) records
  · rw [refused]
    exact mirrors

/-- A master key that verifies is the one that the keys are encrypted under. -/
theorem verifies_master (lawful : crypto.Lawful) {key : CKey} (valid : key.fValid = true) {entry : CPubKey × List UInt8}
    (isSealed : Sealed crypto master (some key) (some entry)) {other : CKeyingMaterial} (passes : verifies crypto other entry = true) :
    other = master := by
  obtain ⟨pubkey,secret⟩ := entry
  obtain ⟨rfl,encrypted⟩ := isSealed
  by_contra differs
  unfold verifies at passes
  dsimp only at passes
  split at passes
  · contradiction
  next wrong decrypted =>
    split at passes
    · contradiction
    · exact lawful.apart key master other secret valid differs encrypted wrong decrypted (eq_of_beq passes)

theorem Mirrors.Unlock (lawful : crypto.Lawful) (mirrors : Mirrors crypto s plain) (vMasterKeyIn : CKeyingMaterial) :
    Mirrors crypto (s.Unlock crypto vMasterKeyIn).2 plain := by
  unfold CCryptoKeyStore.Unlock
  rcases SetCrypted_cases s with ⟨done,able⟩ | refused
  · rw [done]
    obtain ⟨master,which,empty,records⟩ := mirrors.switch able
    dsimp only
    split
    next noKeys =>
      refine mirrors_of_used mirrors.own rfl empty (.inr rfl) fun id => ?_
      have none' : s.mapCryptedKeys[id]? = none := by
        cases found : s.mapCryptedKeys[id]? with
        | none => rfl
        | some entry =>
          have member := ExtTreeMap.mem_toList_iff_getElem?_eq_some.mpr found
          rw [List.head?_eq_none_iff.mp noKeys] at member
          contradiction
      show Sealed crypto vMasterKeyIn plain.mapKeys[id]? s.mapCryptedKeys[id]?
      rw [none',(records id).none_iff.mp none']
      trivial
    next id entry first =>
      split
      next passes =>
        have found : s.mapCryptedKeys[id]? = some entry := ExtTreeMap.mem_toList_iff_getElem?_eq_some.mp (List.mem_of_head? first)
        have record := records id
        rw [found] at record
        cases there : plain.mapKeys[id]? with
        | none =>
          rw [there] at record
          exact absurd record not_false
        | some key =>
          rw [there] at record
          have isMaster := verifies_master lawful (mirrors.own id key there).1 record passes
          exact mirrors_of_used mirrors.own rfl empty (.inr isMaster) records
      · exact mirrors_of_used mirrors.own rfl empty which records
  · rw [refused]
    exact mirrors

theorem Mirrors.AddKeyPubKey (mirrors : Mirrors crypto s plain) {key : CKey} (valid : key.fValid = true) :
    (∃ s', s.AddKeyPubKey crypto key (key.GetPubKey crypto) = (true,s') ∧
      Mirrors crypto s' (plain.AddKeyPubKey crypto key (key.GetPubKey crypto)).2) ∨
    s.AddKeyPubKey crypto key (key.GetPubKey crypto) = (false,s) := by
  unfold CCryptoKeyStore.AddKeyPubKey IsLocked IsCrypted
  cases use : s.fUseCrypto with
  | false =>
    obtain ⟨same,none',locked⟩ := mirrors.unused use
    refine .inl ⟨_,rfl,mirrors.own.add valid,fun _ => ⟨?_,none',locked⟩,fun used => nomatch used⟩
    show s.mapKeys.insert _ key = plain.mapKeys.insert _ key
    rw [same]
  | true =>
    obtain ⟨empty,master,which,records⟩ := mirrors.used use
    simp only [Bool.not_true,Bool.false_eq_true,if_false]
    split
    · exact .inr rfl
    next open' =>
      have isMaster : s.vMasterKey = master := by
        rcases which with locked | same
        · rw [locked] at open'
          contradiction
        · exact same
      split
      · exact .inr rfl
      next secret encrypted =>
        rw [isMaster] at encrypted
        rw [AddCryptedKey_done empty]
        exact .inl ⟨_,rfl,mirrors_of_used (mirrors.own.add valid) rfl empty which (sealed_insert records encrypted _)⟩

theorem Mirrors.EncryptKeys (lawful : crypto.Lawful) (mirrors : Mirrors crypto s plain) {vMasterKeyIn : CKeyingMaterial}
    (proper : s.Proper (.EncryptKeys vMasterKeyIn) = true) :
    (∃ s', s.EncryptKeys crypto vMasterKeyIn = (true,s') ∧ Mirrors crypto s' plain) ∨ s.EncryptKeys crypto vMasterKeyIn = (false,s) := by
  unfold CCryptoKeyStore.EncryptKeys IsCrypted
  cases use : s.fUseCrypto with
  | true => exact .inr (by rw [Bool.or_true]; rfl)
  | false =>
    obtain ⟨same,none',locked⟩ := mirrors.unused use
    have able : s.mapKeys.toList = [] ∨ vMasterKeyIn.length = WALLET_CRYPTO_KEY_SIZE := by
      simp only [Proper,IsCrypted,use,Bool.false_or,Bool.or_eq_true,beq_iff_eq] at proper
      rcases proper with empty | sized
      · left
        rw [ExtTreeMap.isEmpty_iff.mp empty]
        rfl
      · exact .inr sized
    obtain ⟨crypted,done,all⟩ := @encryptAll_all crypto {s with fUseCrypto := true} vMasterKeyIn lawful s.mapKeys.toList able (by
      rintro ⟨id,key⟩ member
      have found := ExtTreeMap.mem_toList_iff_getElem?_eq_some.mp member
      rw [same] at found
      exact (mirrors.own id key found).2) rfl
    left
    have start : (!s.mapCryptedKeys.isEmpty || false) = false := by
      rw [none']
      rfl
    rw [start,if_neg Bool.false_ne_true,done]
    refine ⟨_,rfl,@mirrors_of_used crypto _ plain vMasterKeyIn mirrors.own rfl rfl (.inl locked) ?_⟩
    intro id
    show Sealed crypto vMasterKeyIn plain.mapKeys[id]? crypted[id]?
    rcases all id with ⟨key,member,isSealed⟩ | ⟨absent,kept⟩
    · rw [← same,ExtTreeMap.mem_toList_iff_getElem?_eq_some.mp member]
      exact isSealed
    · have noKey : plain.mapKeys[id]? = none := by
        rw [← same]
        cases found : s.mapKeys[id]? with
        | none => rfl
        | some key => exact absurd (ExtTreeMap.mem_toList_iff_getElem?_eq_some.mpr found) (absent key)
      rw [noKey,kept]
      show Sealed crypto vMasterKeyIn none s.mapCryptedKeys[id]?
      rw [none',ExtTreeMap.getElem?_empty]
      trivial

/-- Under a master key of another size no key is encrypted, but the switch is made. -/
theorem EncryptKeys_wrong_size (unused : s.fUseCrypto = false) (noRecords : s.mapCryptedKeys = ∅) (keys : s.mapKeys ≠ ∅)
    {vMasterKeyIn : CKeyingMaterial} (size : vMasterKeyIn.length ≠ WALLET_CRYPTO_KEY_SIZE) :
    s.EncryptKeys crypto vMasterKeyIn = (false,{s with fUseCrypto := true}) := by
  have start : (!s.mapCryptedKeys.isEmpty || s.IsCrypted) = false := by
    rw [noRecords,IsCrypted,unused]
    rfl
  rw [CCryptoKeyStore.EncryptKeys,start,if_neg Bool.false_ne_true]
  cases list : s.mapKeys.toList with
  | nil =>
    refine absurd (ExtTreeMap.ext_getElem? fun id => ?_) keys
    rw [ExtTreeMap.getElem?_empty]
    cases found : s.mapKeys[id]? with
    | none => rfl
    | some key =>
      have member := ExtTreeMap.mem_toList_iff_getElem?_eq_some.mpr found
      rw [list] at member
      contradiction
  | cons e rest => rw [encryptAll,EncryptSecret,if_pos size]

/-- A call that fails leaves the store as it was. -/
theorem Mirrors.act_false (lawful : crypto.Lawful) (mirrors : Mirrors crypto s plain) {call : KeyCall} (proper : s.Proper call = true)
    (fails : (s.act crypto call).1 = false) : (s.act crypto call).2 = s := by
  cases call with
  | AddKeyPubKey key =>
    change (s.AddKeyPubKey crypto key (key.GetPubKey crypto)).1 = false at fails
    show (s.AddKeyPubKey crypto key (key.GetPubKey crypto)).2 = s
    rcases mirrors.AddKeyPubKey proper with ⟨_,done,_⟩ | refused
    · rw [done] at fails
      contradiction
    · rw [refused]
  | EncryptKeys vMasterKeyIn =>
    change (s.EncryptKeys crypto vMasterKeyIn).1 = false at fails
    show (s.EncryptKeys crypto vMasterKeyIn).2 = s
    rcases mirrors.EncryptKeys lawful proper with ⟨_,done,_⟩ | refused
    · rw [done] at fails
      contradiction
    · rw [refused]
  | Lock =>
    change s.Lock.1 = false at fails
    show s.Lock.2 = s
    unfold CCryptoKeyStore.Lock at fails ⊢
    rcases SetCrypted_cases s with ⟨done,_⟩ | refused
    · rw [done] at fails
      contradiction
    · rw [refused]
  | Unlock vMasterKeyIn =>
    change (s.Unlock crypto vMasterKeyIn).1 = false at fails
    show (s.Unlock crypto vMasterKeyIn).2 = s
    unfold CCryptoKeyStore.Unlock at fails ⊢
    rcases SetCrypted_cases s with ⟨done,_⟩ | refused
    · rw [done] at fails ⊢
      dsimp only at fails ⊢
      split at fails
      · contradiction
      next id entry first =>
        split at fails
        · contradiction
        next wrong =>
          rw [if_neg wrong]
          -- A store with an encrypted key has made the switch before.
          cases use : s.fUseCrypto with
          | false =>
            rw [(mirrors.unused use).2.1] at first
            contradiction
          | true =>
            obtain ⟨basic,crypted,vMasterKey,fUseCrypto⟩ := s
            obtain rfl : fUseCrypto = true := use
            rfl
    · rw [refused]

theorem Mirrors.step (lawful : crypto.Lawful) {both : CCryptoKeyStore × CBasicKeyStore} (mirrors : Mirrors crypto both.1 both.2)
    {call : KeyCall} (proper : both.1.Proper call = true) : Mirrors crypto (step crypto both call).1 (step crypto both call).2 := by
  obtain ⟨s,plain⟩ := both
  cases call with
  | AddKeyPubKey key =>
    unfold CCryptoKeyStore.step act
    dsimp only at mirrors ⊢
    rcases mirrors.AddKeyPubKey proper with ⟨s',done,next⟩ | refused
    · rw [done]
      exact next
    · rw [refused]
      exact mirrors
  | EncryptKeys vMasterKeyIn =>
    show Mirrors crypto (s.EncryptKeys crypto vMasterKeyIn).2 plain
    rcases mirrors.EncryptKeys lawful proper with ⟨s',done,next⟩ | refused
    · rw [done]
      exact next
    · rw [refused]
      exact mirrors
  | Lock => exact mirrors.Lock
  | Unlock vMasterKeyIn => exact mirrors.Unlock lawful vMasterKeyIn

/-- Every call of a run is proper. -/
def Careful (crypto : CryptoRules) (both : CCryptoKeyStore × CBasicKeyStore) : List KeyCall → Bool
  | [] => true
  | call :: calls => both.1.Proper call && Careful crypto (step crypto both call) calls

theorem Mirrors.run (lawful : crypto.Lawful) {both : CCryptoKeyStore × CBasicKeyStore} (mirrors : Mirrors crypto both.1 both.2)
    {calls : List KeyCall} (careful : Careful crypto both calls = true) :
    Mirrors crypto (calls.foldl (CCryptoKeyStore.step crypto) both).1 (calls.foldl (CCryptoKeyStore.step crypto) both).2 := by
  induction calls generalizing both with
  | nil => exact mirrors
  | cons call calls ih =>
    rw [Careful,Bool.and_eq_true] at careful
    exact ih (mirrors.step lawful careful.1) careful.2

/-- The keys of a wallet file, each with its secret encrypted under one master key. -/
def Encrypted (crypto : CryptoRules) (master : CKeyingMaterial) (entries : List (CKey × List UInt8)) : Prop :=
  ∀ e ∈ entries, e.1.fValid = true ∧ EncryptSecret crypto master e.1.bytes (crypto.Hash (e.1.GetPubKey crypto)) = some e.2

theorem mirrors_load {entries : List (CKey × List UInt8)} (encrypted : Encrypted crypto master entries) :
    Mirrors crypto (load crypto entries).1 (load crypto entries).2 := by
  have loads : ∀ both : CCryptoKeyStore × CBasicKeyStore, Mirrors crypto both.1 both.2 → both.1.mapKeys = ∅ → both.1.vMasterKey = [] →
      (∀ id : CKeyID, Sealed crypto master both.2.mapKeys[id]? both.1.mapCryptedKeys[id]?) →
      Mirrors crypto (entries.foldl (loadKey crypto) both).1 (entries.foldl (loadKey crypto) both).2 := by
    induction entries with
    | nil => exact fun _ mirrors _ _ _ => mirrors
    | cons e entries ih =>
      rintro ⟨s,plain⟩ mirrors empty locked records
      obtain ⟨valid,secret⟩ := encrypted e (List.mem_cons_self ..)
      have added : loadKey crypto (s,plain) e = ({s with
          fUseCrypto := true
          mapCryptedKeys := s.mapCryptedKeys.insert (crypto.Hash160 (e.1.GetPubKey crypto)) (e.1.GetPubKey crypto,e.2)},
          (plain.AddKeyPubKey crypto e.1 (e.1.GetPubKey crypto)).2) := by
        unfold loadKey
        dsimp only
        rw [AddCryptedKey_done empty]
        rfl
      have next := sealed_insert records secret (crypto.Hash160 (e.1.GetPubKey crypto))
      rw [List.foldl_cons,added]
      exact ih (fun e member => encrypted e (List.mem_cons_of_mem _ member)) _
        (mirrors_of_used (mirrors.own.add valid) rfl empty (.inl locked) next) empty locked next
  apply loads
  · exact ⟨fun _ _ found => (nomatch found),fun _ => ⟨rfl,rfl,rfl⟩,fun used => (nomatch used)⟩
  · rfl
  · rfl
  · intro id
    trivial

/-- In every careful run the store answers as the plain one does, for the keys themselves
    while it is not locked; a locked one gives no key, a call that fails changes nothing,
    and after the switch no plain key is left. -/
theorem answers_as_plain (lawful : crypto.Lawful) {entries : List (CKey × List UInt8)} (encrypted : Encrypted crypto master entries)
    {calls : List KeyCall} (careful : Careful crypto (load crypto entries) calls = true) (ran : run crypto entries calls = (s,plain)) :
    (∀ address, s.HaveKey address = plain.HaveKey address) ∧ s.GetKeys = plain.GetKeys ∧
      (∀ address, s.GetPubKey crypto address = plain.GetPubKey crypto address) ∧
      (s.IsLocked = false → ∀ address, s.GetKey crypto address = plain.GetKey address) ∧
      (s.IsLocked = true → ∀ address, s.GetKey crypto address = none) ∧
      (∀ call, s.Proper call = true → (s.act crypto call).1 = false → (s.act crypto call).2 = s) ∧
      (s.IsCrypted = true → s.mapKeys = ∅) := by
  have last : Mirrors crypto (run crypto entries calls).1 (run crypto entries calls).2 := (mirrors_load encrypted).run lawful careful
  rw [ran] at last
  exact ⟨last.HaveKey,last.GetKeys,last.GetPubKey,last.GetKey lawful,GetKey_locked,fun _ => last.act_false lawful,fun used => (last.used used).1⟩

/-! ### Two runs -/

private def toyCrypto : CryptoRules where
  publicKey secret fCompressed := (if fCompressed then 2 else 4) :: secret ++ if fCompressed then [] else secret
  Hash160 bytes := bytes.foldl (fun n byte => 256*n+byte.toNat) 0
  Hash bytes := bytes.foldl (fun n byte => 256*n+byte.toNat) 0
  Encrypt master _ plain := some (master ++ plain)
  Decrypt master _ secret := if secret.take 32 = master then some (secret.drop 32) else none

private def firstSecret : List UInt8 := List.replicate 32 1

private def firstKey : CKey := {fValid := true,fCompressed := true,vch := firstSecret,checked := by decide +kernel}

private theorem toyCrypto_lawful : toyCrypto.Lawful := by
  have taken : ∀ master iv plain secret, EncryptSecret toyCrypto master plain iv = some secret →
      master.length = 32 ∧ secret = master ++ plain := by
    intro master iv plain secret encrypted
    unfold EncryptSecret at encrypted
    split at encrypted
    · contradiction
    next sized =>
      cases encrypted
      exact ⟨not_not.mp sized,rfl⟩
  refine ⟨?_,?_,?_,?_⟩
  · intro master iv plain _
    exact Option.some_ne_none _
  · intro master iv plain secret encrypted
    obtain ⟨sized,rfl⟩ := taken master iv plain secret encrypted
    rw [DecryptSecret,if_neg (not_not.mpr (show master.length = WALLET_CRYPTO_KEY_SIZE from sized))]
    show (if (master ++ plain).take 32 = master then some ((master ++ plain).drop 32) else none) = some plain
    rw [← sized,List.take_left,List.drop_left,if_pos rfl]
  · intro key master other secret _ differs encrypted wrong decrypted
    obtain ⟨sized,rfl⟩ := taken master _ _ secret encrypted
    unfold DecryptSecret at decrypted
    split at decrypted
    · contradiction
    · change (if (master ++ key.bytes).take 32 = other then some ((master ++ key.bytes).drop 32) else none) = some wrong at decrypted
      rw [← sized,List.take_left,if_neg (Ne.symm differs)] at decrypted
      contradiction
  · intro secret fCompressed sized _
    cases fCompressed <;> simp [CPubKey.IsCompressed,toyCrypto,sized]

/-- A master key of the wrong size: nothing is encrypted, but the switch is made, and the
    key is no longer found. -/
theorem failed_EncryptKeys_forgets :
    let s := (run toyCrypto [] [.AddKeyPubKey firstKey]).1
    let pubkey := firstKey.GetPubKey toyCrypto
    s.HaveKey (toyCrypto.Hash160 pubkey) = true ∧ (s.act toyCrypto (.EncryptKeys [1])).1 = false ∧
      (s.act toyCrypto (.EncryptKeys [1])).2.HaveKey (toyCrypto.Hash160 pubkey) = false := by
  decide +kernel

private def secondKey : CKey := {fValid := true,vch := List.replicate 32 2,checked := by decide +kernel}

private def masterKey : CKeyingMaterial := List.replicate 32 7

private def wallet : List (CKey × List UInt8) := [(firstKey,masterKey ++ firstSecret)]

private def session : List KeyCall := [.AddKeyPubKey secondKey,.Unlock [1],.Unlock masterKey,.AddKeyPubKey secondKey,.EncryptKeys [1]]

theorem answers_as_plain_sample :
    ∃ s plain, run toyCrypto wallet session = (s,plain) ∧ s.IsLocked = false ∧ plain.mapKeys.size = 2 ∧
      ∀ address, s.GetKey toyCrypto address = plain.GetKey address := by
  have unlocked : (run toyCrypto wallet session).1.IsLocked = false := by decide +kernel
  have both : (run toyCrypto wallet session).2.mapKeys.size = 2 := by decide +kernel
  have careful : Careful toyCrypto (load toyCrypto wallet) session = true := by decide +kernel
  have encrypted : Encrypted toyCrypto masterKey wallet := by
    intro e member
    obtain rfl := List.mem_singleton.mp member
    decide +kernel
  generalize ran : run toyCrypto wallet session = result at unlocked both
  obtain ⟨s,plain⟩ := result
  exact ⟨s,plain,rfl,unlocked,both,(answers_as_plain toyCrypto_lawful encrypted careful ran).2.2.2.1 unlocked⟩

end CCryptoKeyStore
end

end Tetra
