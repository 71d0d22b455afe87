import Mathlib
import Tetra.ScriptParse
import Tetra.Serialize
import Tetra.Templates

/-!
Bloom filters that a peer loads: what was put in is found again, and a transaction that
touches it is relevant, whatever bytes the filter and the scripts are made of.
-/
namespace Tetra
open Codec CScript

def ROTL32 (x : UInt32) (r : UInt32) : UInt32 := (x <<< r) ||| (x >>> (32-r))

/-- The rounds over whole blocks of four bytes, lowest byte first. -/
def murmurBody (h1 : UInt32) : Nat → List UInt8 → UInt32
  | 0, _ => h1
  | nblocks+1, bytes =>
    let k1 := UInt32.ofNat (leNat (bytes.take 4))
    let k1 := k1*0xcc9e2d51
    let k1 := ROTL32 k1 15
    let k1 := k1*0x1b873593
    let h1 := h1 ^^^ k1
    let h1 := ROTL32 h1 13
    murmurBody (h1*5+0xe6546b64) nblocks (bytes.drop 4)

/-- `MurmurHash3`; the tail is what is left of the last block. -/
def MurmurHash3 (nHashSeed : UInt32) (vDataToHash : List UInt8) : UInt32 :=
  let nblocks := vDataToHash.length/4
  let h1 := murmurBody nHashSeed nblocks vDataToHash
  let tail := vDataToHash.drop (nblocks*4)
  let h1 :=
    if tail.isEmpty then h1
    else
      let k1 := UInt32.ofNat (leNat tail)
      let k1 := k1*0xcc9e2d51
      let k1 := ROTL32 k1 15
      h1 ^^^ k1*0x1b873593
  let h1 := h1 ^^^ UInt32.ofNat vDataToHash.length
  let h1 := h1 ^^^ (h1 >>> 16)
  let h1 := h1*0x85ebca6b
  let h1 := h1 ^^^ (h1 >>> 13)
  let h1 := h1*0xc2b2ae35
  h1 ^^^ (h1 >>> 16)

example : [MurmurHash3 0xFBA4C795 [],MurmurHash3 0xFBA4C795 [0],MurmurHash3 0 [0,0x11,0x22],MurmurHash3 0 [0,0x11,0x22,0x33,0x44,0x55]] =
    [0x6a396f08,0xea3f0b17,0x8eb51c3d,0xfc2e4a15] := by decide +kernel

def bit_mask : List UInt8 := [0x01,0x02,0x04,0x08,0x10,0x20,0x40,0x80]
def BLOOM_UPDATE_ALL : UInt8 := 1
def BLOOM_UPDATE_P2PUBKEY_ONLY : UInt8 := 2
def BLOOM_UPDATE_MASK : UInt8 := 3

def bitMask (nIndex : Nat) : UInt8 := bit_mask.getD (7 &&& nIndex) 0

/-- `vData[nIndex >> 3] |= bit_mask[7 & nIndex]`; none outside of the bytes. -/
def setBit (vData : List UInt8) (nIndex : Nat) : Option (List UInt8) :=
  (vData[nIndex >>> 3]?).map fun byte => vData.set (nIndex >>> 3) (byte ||| bitMask nIndex)

/-- `vData[nIndex >> 3] & bit_mask[7 & nIndex]` -/
def testBit (vData : List UInt8) (nIndex : Nat) : Option Bool := (vData[nIndex >>> 3]?).map fun byte => byte &&& bitMask nIndex != 0

/-- The filter as it is read, with the two marks that are not sent. -/
structure CBloomFilter where
  vData : List UInt8
  isFull : Bool
  isEmpty : Bool
  nHashFuncs : UInt32
  nTweak : UInt32
  nFlags : UInt8
deriving DecidableEq

namespace CBloomFilter

/-- The place of a bit; none where the remainder would be by zero. -/
def Hash (filter : CBloomFilter) (nHashNum : Nat) (vDataToHash : List UInt8) : Option Nat :=
  if filter.vData.length*8 = 0 then none
  else some ((MurmurHash3 (UInt32.ofNat nHashNum*0xFBA4C795+filter.nTweak) vDataToHash).toNat%(filter.vData.length*8))

def insertLoop (filter : CBloomFilter) (vKey : List UInt8) : List Nat → Option CBloomFilter
  | [] => some filter
  | i :: rest => do
    let nIndex ← filter.Hash i vKey
    let vData ← setBit filter.vData nIndex
    insertLoop {filter with vData := vData} vKey rest

/-- `insert` of bytes; none where the code would divide by zero or leave `vData`. -/
def insert (filter : CBloomFilter) (vKey : List UInt8) : Option CBloomFilter :=
  if filter.isFull then some filter
  else (filter.insertLoop vKey (List.range filter.nHashFuncs.toNat)).map fun filter => {filter with isEmpty := false}

def containsLoop (filter : CBloomFilter) (vKey : List UInt8) : List Nat → Option Bool
  | [] => some true
  | i :: rest => do
    let nIndex ← filter.Hash i vKey
    let set ← testBit filter.vData nIndex
    if set then containsLoop filter vKey rest else some false

def contains (filter : CBloomFilter) (vKey : List UInt8) : Option Bool :=
  if filter.isFull then some true
  else if filter.isEmpty then some false
  else filter.containsLoop vKey (List.range filter.nHashFuncs.toNat)

/-- The bytes of a hash. -/
def hashKey (hash : uint256) : List UInt8 := leBytes 32 hash

/-- The walk over a script: whether some data in it is in the filter, before the first
    operation that cannot be read. -/
def matchData (filter : CBloomFilter) (script : CScript) : Nat → Nat → Option Bool
  | 0, _ => none
  | fuel+1, pc =>
    if pc < script.length then do
      let fetched ← GetOp2 script pc
      if fetched.fRet = false then some false
      else
        let hit ← (if fetched.vchRet.length ≠ 0 then filter.contains fetched.vchRet else some false)
        if hit then some true else matchData filter script fuel fetched.pc
    else some false

/-- Whether a match in the script of an output puts its outpoint in. -/
def updates (filter : CBloomFilter) (scriptPubKey : CScript) : Bool :=
  if filter.nFlags &&& BLOOM_UPDATE_MASK = BLOOM_UPDATE_ALL then true
  else if filter.nFlags &&& BLOOM_UPDATE_MASK = BLOOM_UPDATE_P2PUBKEY_ONLY then
    let (solved,type,_) := Solver scriptPubKey []
    solved && (type == .TX_PUBKEY || type == .TX_MULTISIG)
  else false

/-- The loop over the outputs: `fFound` and the filter. -/
def updateOutputs (hash : uint256) : Nat → List CTxOut → Bool × CBloomFilter → Option (Bool × CBloomFilter)
  | _, [], found => some found
  | i, txout :: rest, (fFound,filter) => do
    let hit ← filter.matchData txout.scriptPubKey (txout.scriptPubKey.length+1) 0
    if hit then
      let filter ← (if filter.updates txout.scriptPubKey then filter.insert (COutPoint.Serialize ⟨hash,i⟩) else some filter)
      updateOutputs hash (i+1) rest (true,filter)
    else updateOutputs hash (i+1) rest (fFound,filter)

def matchInputs (filter : CBloomFilter) : List CTxIn → Option Bool
  | [] => some false
  | txin :: rest => do
    let spent ← filter.contains txin.prevout.Serialize
    if spent then some true
    else
      let hit ← filter.matchData txin.scriptSig (txin.scriptSig.length+1) 0
      if hit then some true else matchInputs filter rest

def IsRelevantAndUpdate (filter : CBloomFilter) (tx : CTransaction) (hash : uint256) : Option (Bool × CBloomFilter) :=
  if filter.isFull then some (true,filter)
  else if filter.isEmpty then some (false,filter)
  else do
    let known ← filter.contains (hashKey hash)
    let (fFound,filter) ← updateOutputs hash 0 tx.vout (known,filter)
    if fFound then some (true,filter) else (filter.matchInputs tx.vin).map fun found => (found,filter)

def UpdateEmptyFull (filter : CBloomFilter) : CBloomFilter :=
  {filter with isFull := filter.vData.all (· == 0xff),isEmpty := filter.vData.all (· == 0)}

/-! ### The bits -/

/-- A bit of the filter. -/
def Set (vData : List UInt8) (nIndex : Nat) : Prop := testBit vData nIndex = some true

theorem bitMask_ne_zero (nIndex : Nat) : bitMask nIndex ≠ 0 := by
  have small : 7 &&& nIndex ≤ 7 := Nat.and_le_left
  rw [bitMask]
  generalize 7 &&& nIndex = k at small
  interval_cases k <;> decide

theorem byte_place {vData : List UInt8} {nIndex : Nat} (inside : nIndex < vData.length*8) : nIndex >>> 3 < vData.length := by
  rw [Nat.shiftRight_eq_div_pow]
  omega

theorem testBit_inside {vData : List UInt8} {nIndex : Nat} (inside : nIndex < vData.length*8) : ∃ set, testBit vData nIndex = some set := by
  rw [testBit,List.getElem?_eq_getElem (byte_place inside)]
  exact ⟨_,rfl⟩

theorem set_iff {vData : List UInt8} {nIndex : Nat} :
    Set vData nIndex ↔ ∃ byte, vData[nIndex >>> 3]? = some byte ∧ byte &&& bitMask nIndex ≠ 0 := by
  rw [Set,testBit,Option.map_eq_some_iff]
  simp

/-- Setting a bit keeps all that are set. -/
theorem setBit_spec {vData : List UInt8} {nIndex : Nat} (inside : nIndex < vData.length*8) :
    ∃ vData', setBit vData nIndex = some vData' ∧ vData'.length = vData.length ∧ Set vData' nIndex ∧ ∀ j, Set vData j → Set vData' j := by
  have place := byte_place inside
  have either : ∀ a b c : UInt8, a &&& c ≠ 0 ∨ b &&& c ≠ 0 → (a ||| b) &&& c ≠ 0 := by
    intro a b c some both
    have parts : (a ||| b) &&& c = (a &&& c) ||| (b &&& c) := UInt8.toBitVec_inj.mp BitVec.and_or_distrib_right
    rw [parts,UInt8.or_eq_zero_iff] at both
    rcases some with left | right
    · exact left both.1
    · exact right both.2
  refine ⟨vData.set (nIndex >>> 3) (vData[nIndex >>> 3] ||| bitMask nIndex),?_,List.length_set,?_,fun j set => ?_⟩
  · rw [setBit,List.getElem?_eq_getElem place]
    rfl
  · exact set_iff.mpr ⟨_,List.getElem?_set_self place,either _ _ _ (.inr (by rw [UInt8.and_self]; exact bitMask_ne_zero nIndex))⟩
  · obtain ⟨byte,there,bit⟩ := set_iff.mp set
    by_cases equal : nIndex >>> 3 = j >>> 3
    · rw [← equal,List.getElem?_eq_getElem place] at there
      refine set_iff.mpr ⟨_,by rw [← equal]; exact List.getElem?_set_self place,either _ _ _ (.inl ?_)⟩
      rw [Option.some.inj there]
      exact bit
    · exact set_iff.mpr ⟨byte,by rw [List.getElem?_set_ne equal]; exact there,bit⟩

/-! ### Insertion -/

/-- A filter that is not full has bytes to look into. -/
def Sane (filter : CBloomFilter) : Prop := filter.isFull = false → filter.vData ≠ []

/-- What an insertion leaves: the same filter with more bits. -/
structure Grows (f f' : CBloomFilter) : Prop where
  isFull : f'.isFull = f.isFull
  length : f'.vData.length = f.vData.length
  nHashFuncs : f'.nHashFuncs = f.nHashFuncs
  nTweak : f'.nTweak = f.nTweak
  nFlags : f'.nFlags = f.nFlags
  set : ∀ j, Set f.vData j → Set f'.vData j
  isEmpty : f'.isEmpty = true → f.isEmpty = true

theorem Grows.refl (f : CBloomFilter) : Grows f f := ⟨rfl,rfl,rfl,rfl,rfl,fun _ => id,id⟩

theorem Grows.trans {f g h : CBloomFilter} (first : Grows f g) (second : Grows g h) : Grows f h where
  isFull := second.isFull.trans first.isFull
  length := second.length.trans first.length
  nHashFuncs := second.nHashFuncs.trans first.nHashFuncs
  nTweak := second.nTweak.trans first.nTweak
  nFlags := second.nFlags.trans first.nFlags
  set j := second.set j ∘ first.set j
  isEmpty := first.isEmpty ∘ second.isEmpty

theorem Grows.sane {f g : CBloomFilter} (grows : Grows f g) (sane : Sane f) : Sane g := by
  intro open_
  have bytes := sane (grows.isFull ▸ open_)
  rw [← List.length_pos_iff] at bytes ⊢
  rw [grows.length]
  exact bytes

/-- Some bits of a key. -/
def Marked (f : CBloomFilter) (vKey : List UInt8) (is : List Nat) : Prop := ∀ i ∈ is, ∀ nIndex, f.Hash i vKey = some nIndex → Set f.vData nIndex

/-- What the filter holds: everything if it is full, else a key of which all bits are set. -/
def Holds (f : CBloomFilter) (vKey : List UInt8) : Prop :=
  f.isFull = true ∨ f.isEmpty = false ∧ Marked f vKey (List.range f.nHashFuncs.toNat)

section
variable {f g : CBloomFilter}

theorem Grows.hash (grows : Grows f g) (i : Nat) (vKey : List UInt8) : g.Hash i vKey = f.Hash i vKey := by
  rw [Hash,Hash,grows.length,grows.nTweak]

theorem Grows.marked (grows : Grows f g) {vKey : List UInt8} {is : List Nat} (marked : Marked f vKey is) : Marked g vKey is := by
  intro i listed nIndex hashed
  rw [grows.hash] at hashed
  exact grows.set nIndex (marked i listed nIndex hashed)

/-- What was found is found in every later filter. -/
theorem Grows.holds (grows : Grows f g) {vKey : List UInt8} (holds : Holds f vKey) : Holds g vKey := by
  rcases holds with full | ⟨filled,marked⟩
  · exact .inl (grows.isFull.trans full)
  · refine .inr ⟨?_,?_⟩
    · cases empty : g.isEmpty with
      | false => rfl
      | true =>
        rw [grows.isEmpty empty] at filled
        contradiction
    · rw [grows.nHashFuncs]
      exact grows.marked marked

theorem Hash_inside (bytes : f.vData ≠ []) (i : Nat) (vKey : List UInt8) :
    ∃ nIndex, f.Hash i vKey = some nIndex ∧ nIndex < f.vData.length*8 := by
  have positive := List.length_pos_iff.mpr bytes
  rw [Hash,if_neg (by omega)]
  exact ⟨_,rfl,Nat.mod_lt _ (by omega)⟩

theorem insertLoop_spec (bytes : f.vData ≠ []) (vKey : List UInt8) (is : List Nat) :
    ∃ g, f.insertLoop vKey is = some g ∧ Grows f g ∧ Marked g vKey is := by
  induction is generalizing f with
  | nil => exact ⟨f,rfl,.refl f,fun i listed => absurd listed (by simp)⟩
  | cons i rest ih =>
    obtain ⟨nIndex,hashed,inside⟩ := Hash_inside bytes i vKey
    obtain ⟨vData,sets,length,now,kept⟩ := setBit_spec inside
    have first : Grows f {f with vData := vData} := ⟨rfl,length,rfl,rfl,rfl,kept,id⟩
    have still : vData ≠ [] := List.length_pos_iff.mp (length ▸ List.length_pos_iff.mpr bytes)
    obtain ⟨g,inserts,grows,marked⟩ := @ih {f with vData := vData} still
    refine ⟨g,?_,first.trans grows,fun j listed nIndex' hashed' => ?_⟩
    · rw [insertLoop,hashed,Option.bind_eq_bind,Option.bind_some,sets]
      exact inserts
    · rcases List.mem_cons.mp listed with rfl | later
      · rw [grows.hash,first.hash,hashed] at hashed'
        exact Option.some.inj hashed' ▸ grows.set nIndex now
      · exact marked j later nIndex' hashed'

/-- An insertion succeeds, only adds, and the key is held from then on. -/
theorem insert_spec (sane : Sane f) (vKey : List UInt8) : ∃ g, f.insert vKey = some g ∧ Grows f g ∧ Holds g vKey := by
  rw [insert]
  cases full : f.isFull with
  | true => exact ⟨f,by rw [if_pos rfl],.refl f,.inl full⟩
  | false =>
    obtain ⟨g,inserts,grows,marked⟩ := insertLoop_spec (sane full) vKey (List.range f.nHashFuncs.toNat)
    have filled : Grows f {g with isEmpty := false} :=
      ⟨grows.isFull,grows.length,grows.nHashFuncs,grows.nTweak,grows.nFlags,grows.set,fun empty => by contradiction⟩
    refine ⟨{g with isEmpty := false},by rw [if_neg (by simp),inserts]; rfl,filled,.inr ⟨rfl,?_⟩⟩
    rw [grows.nHashFuncs]
    exact marked

theorem containsLoop_spec (bytes : f.vData ≠ []) (vKey : List UInt8) (is : List Nat) :
    ∃ found, f.containsLoop vKey is = some found ∧ (found = true ↔ Marked f vKey is) := by
  induction is with
  | nil => exact ⟨true,rfl,iff_of_true rfl fun i listed => absurd listed (by simp)⟩
  | cons i rest ih =>
    obtain ⟨found,looks,same⟩ := ih
    obtain ⟨nIndex,hashed,inside⟩ := Hash_inside bytes i vKey
    obtain ⟨set,tests⟩ := testBit_inside inside
    rw [containsLoop,hashed,Option.bind_eq_bind,Option.bind_some,tests]
    cases set with
    | false =>
      refine ⟨false,rfl,iff_of_false (by simp) fun marked => ?_⟩
      have now : testBit f.vData nIndex = some true := marked i (List.mem_cons_self ..) nIndex hashed
      rw [tests] at now
      contradiction
    | true =>
      refine ⟨found,looks,same.trans ⟨fun marked j listed nIndex' hashed' => ?_,fun marked j later => marked j (List.mem_cons_of_mem _ later)⟩⟩
      rcases List.mem_cons.mp listed with rfl | later
      · rw [hashed] at hashed'
        exact Option.some.inj hashed' ▸ tests
      · exact marked j later nIndex' hashed'

/-- What `contains` answers is what the filter holds. -/
theorem contains_spec (sane : Sane f) (vKey : List UInt8) : ∃ found, f.contains vKey = some found ∧ (found = true ↔ Holds f vKey) := by
  rw [contains,Holds]
  cases full : f.isFull with
  | true => exact ⟨true,rfl,by simp⟩
  | false =>
    cases empty : f.isEmpty with
    | true => exact ⟨false,rfl,by simp⟩
    | false =>
      obtain ⟨found,looks,same⟩ := containsLoop_spec (sane full) vKey (List.range f.nHashFuncs.toNat)
      exact ⟨found,looks,by rw [same]; simp⟩

/-! ### Relevance -/

/-- The data that the operations of a script push, before the first that cannot be read. -/
def elements (script : CScript) : List (List UInt8) := ((parse script (script.length+1) 0).map fun parsed => parsed.1.map Prod.snd).getD []

/-- The walk over a script finds what the filter holds of its data. -/
theorem matchData_parse (sane : Sane f) (script : CScript) {fuel pc : Nat} (inside : pc ≤ script.length) (enough : script.length < fuel+pc) :
    ∃ ops stop hit, parse script fuel pc = some (ops,stop) ∧ f.matchData script fuel pc = some hit ∧
      (hit = true ↔ ∃ op ∈ ops, op.2 ≠ [] ∧ Holds f op.2) := by
  induction fuel generalizing pc with
  | zero => omega
  | succ fuel ih =>
    obtain ⟨fetched,got,moves,stays⟩ := GetOp2_stays script pc
    rw [parse,matchData,got,Option.bind_eq_bind,Option.bind_some]
    cases ret : fetched.fRet with
    | false =>
      refine ⟨[],fetched.pc,false,rfl,?_,by simp⟩
      split
      · rw [Option.bind_eq_bind,Option.bind_some,if_pos ret]
      · rfl
    | true =>
      have more : pc < script.length := by
        by_contra ended
        rw [GetOp2,if_pos (by omega)] at got
        rw [← Option.some.inj got] at ret
        contradiction
      obtain ⟨ops,stop,hit,parses,matches_,same⟩ := ih (stays inside).2 (by have := moves ret; omega)
      obtain ⟨found,looks,holds⟩ := contains_spec sane fetched.vchRet
      simp only [if_pos more,Option.bind_eq_bind,Option.bind_some,ret,reduceCtorEq,reduceIte,parses]
      by_cases bare : fetched.vchRet.length = 0
      · have none : fetched.vchRet = [] := List.length_eq_zero_iff.mp bare
        rw [if_neg (not_not.mpr bare)]
        refine ⟨_,_,hit,rfl,matches_,?_⟩
        rw [same]
        simp [none]
      · have some_ : fetched.vchRet ≠ [] := fun none => bare (by rw [none]; rfl)
        rw [if_pos bare,looks,Option.bind_some]
        cases found with
        | true => exact ⟨_,_,true,rfl,rfl,iff_of_true rfl ⟨_,List.mem_cons_self ..,some_,holds.mp rfl⟩⟩
        | false =>
          refine ⟨_,_,hit,rfl,matches_,same.trans ⟨?_,?_⟩⟩
          · rintro ⟨op,listed,filled,held⟩
            exact ⟨op,List.mem_cons_of_mem _ listed,filled,held⟩
          · rintro ⟨op,listed,filled,held⟩
            rcases List.mem_cons.mp listed with rfl | later
            · exact absurd (holds.mpr held) (by simp)
            · exact ⟨op,later,filled,held⟩

/-- Whether the filter holds some data of a script. -/
def Touches (f : CBloomFilter) (script : CScript) : Prop := ∃ vch ∈ elements script, vch ≠ [] ∧ Holds f vch

theorem matchData_spec (sane : Sane f) (script : CScript) :
    ∃ hit, f.matchData script (script.length+1) 0 = some hit ∧ (hit = true ↔ Touches f script) := by
  obtain ⟨ops,stop,hit,parses,walks,same⟩ := matchData_parse sane script (Nat.zero_le _) (show script.length < script.length+1+0 by omega)
  refine ⟨hit,walks,same.trans ?_⟩
  rw [Touches,elements,parses]
  simp only [Option.map_some,Option.getD_some,List.mem_map,exists_exists_and_eq_and]

theorem Grows.touches (grows : Grows f g) {script : CScript} (touches : Touches f script) : Touches g script := by
  obtain ⟨vch,listed,filled,held⟩ := touches
  exact ⟨vch,listed,filled,grows.holds held⟩

theorem Grows.updates (grows : Grows f g) (script : CScript) : g.updates script = f.updates script := by
  rw [CBloomFilter.updates,CBloomFilter.updates,grows.nFlags]

/-- What the loop over the outputs does with each: a script that is touched is found, and its
    outpoint is put in if the flags say so. -/
theorem updateOutputs_spec (sane : Sane f) (hash : uint256) (i : Nat) (vout : List CTxOut) (fFound : Bool) :
    ∃ fFound' g, updateOutputs hash i vout (fFound,f) = some (fFound',g) ∧ Grows f g ∧ (fFound = true → fFound' = true) ∧
      ∀ k txout, vout[k]? = some txout → ∃ before h, updateOutputs hash i (vout.take k) (fFound,f) = some (before,h) ∧ Grows f h ∧
        (Touches h txout.scriptPubKey → fFound' = true ∧ (f.updates txout.scriptPubKey = true → Holds g (COutPoint.Serialize ⟨hash,i+k⟩))) := by
  induction vout generalizing f i fFound with
  | nil => exact ⟨fFound,f,rfl,.refl f,id,fun k txout there => absurd there (by simp)⟩
  | cons first rest ih =>
    obtain ⟨hit,walks,same⟩ := matchData_spec sane first.scriptPubKey
    -- What the turn for the first output leaves.
    obtain ⟨found₁,f₁,turn,grows,kept,touched⟩ : ∃ found₁ f₁, (∀ tail, updateOutputs hash i (first :: tail) (fFound,f) =
        updateOutputs hash (i+1) tail (found₁,f₁)) ∧ Grows f f₁ ∧ (fFound = true → found₁ = true) ∧ (Touches f first.scriptPubKey →
          found₁ = true ∧ (f.updates first.scriptPubKey = true → Holds f₁ (COutPoint.Serialize ⟨hash,i⟩))) := by
      simp only [updateOutputs,walks,Option.bind_eq_bind,Option.bind_some]
      cases hit with
      | false => exact ⟨fFound,f,fun tail => by simp,.refl f,id,fun touches => absurd (same.mpr touches) (by simp)⟩
      | true =>
        cases flag : f.updates first.scriptPubKey with
        | false => exact ⟨true,f,fun tail => by simp,.refl f,fun _ => rfl,fun _ => ⟨rfl,fun set => absurd set (by simp)⟩⟩
        | true =>
          obtain ⟨f₁,inserts,grows,held⟩ := insert_spec sane (COutPoint.Serialize ⟨hash,i⟩)
          exact ⟨true,f₁,fun tail => by simp [inserts],grows,fun _ => rfl,fun _ => ⟨rfl,fun _ => held⟩⟩
    obtain ⟨fFound',g,runs,later,keeps,outputs⟩ := @ih f₁ (grows.sane sane) (i+1) found₁
    refine ⟨fFound',g,(turn rest).trans runs,grows.trans later,keeps ∘ kept,fun k txout there => ?_⟩
    cases k with
    | zero =>
      obtain rfl := Option.some.inj there
      refine ⟨fFound,f,rfl,.refl f,fun touches => ?_⟩
      obtain ⟨now,puts⟩ := touched touches
      exact ⟨keeps now,fun flag => later.holds (puts flag)⟩
    | succ k =>
      obtain ⟨before,h,runs',grows',finds⟩ := outputs k txout there
      refine ⟨before,h,(turn (rest.take k)).trans runs',grows.trans grows',fun touches => ?_⟩
      obtain ⟨now,puts⟩ := finds touches
      refine ⟨now,fun flag => ?_⟩
      rw [← grows.updates] at flag
      rw [show i+(k+1) = i+1+k by omega]
      exact puts flag

theorem matchInputs_spec (sane : Sane f) (vin : List CTxIn) :
    ∃ found, f.matchInputs vin = some found ∧
      (found = true ↔ ∃ txin ∈ vin, Holds f txin.prevout.Serialize ∨ Touches f txin.scriptSig) := by
  induction vin with
  | nil => exact ⟨false,rfl,by simp⟩
  | cons txin rest ih =>
    obtain ⟨found,looks,same⟩ := ih
    obtain ⟨spent,looks',holds⟩ := contains_spec sane txin.prevout.Serialize
    obtain ⟨hit,walks,touches⟩ := matchData_spec sane txin.scriptSig
    rw [matchInputs,looks',walks,looks]
    cases spent with
    | true => exact ⟨true,rfl,iff_of_true rfl ⟨txin,List.mem_cons_self ..,.inl (holds.mp rfl)⟩⟩
    | false =>
      cases hit with
      | true => exact ⟨true,rfl,iff_of_true rfl ⟨txin,List.mem_cons_self ..,.inr (touches.mp rfl)⟩⟩
      | false =>
        refine ⟨found,rfl,same.trans ?_⟩
        have apart : ¬ Holds f txin.prevout.Serialize := fun held => by simpa using holds.mpr held
        have apart' : ¬ Touches f txin.scriptSig := fun touched => by simpa using touches.mpr touched
        simp [apart,apart']

theorem updateOutputs_untouched (sane : Sane f) (hash : uint256) {vout : List CTxOut} (untouched : ∀ txout ∈ vout, ¬ Touches f txout.scriptPubKey)
    (i : Nat) (fFound : Bool) : updateOutputs hash i vout (fFound,f) = some (fFound,f) := by
  induction vout generalizing i with
  | nil => rfl
  | cons first rest ih =>
    obtain ⟨hit,walks,same⟩ := matchData_spec sane first.scriptPubKey
    cases hit with
    | true => exact absurd (same.mp rfl) (untouched first (List.mem_cons_self ..))
    | false =>
      rw [updateOutputs,walks]
      exact ih (fun txout listed => untouched txout (List.mem_cons_of_mem _ listed)) (i+1)

/-- A transaction with a hash, a spent outpoint or data in a script among some keys. -/
def Relevant (keys : List UInt8 → Prop) (tx : CTransaction) (hash : uint256) : Prop :=
  keys (hashKey hash) ∨ (∃ txin ∈ tx.vin, keys txin.prevout.Serialize ∨ ∃ vch ∈ elements txin.scriptSig, vch ≠ [] ∧ keys vch) ∨
    ∃ txout ∈ tx.vout, ∃ vch ∈ elements txout.scriptPubKey, vch ≠ [] ∧ keys vch

/-- Data in the script of an output is in the filter when the walk over the outputs gets there. -/
def MatchedOutput (f : CBloomFilter) (tx : CTransaction) (hash : uint256) (i : Nat) (txout : CTxOut) : Prop :=
  tx.vout[i]? = some txout ∧ ∃ known before h, f.contains (hashKey hash) = some known ∧
    updateOutputs hash 0 (tx.vout.take i) (known,f) = some (before,h) ∧
      ∃ vch ∈ elements txout.scriptPubKey, vch ≠ [] ∧ h.contains vch = some true

theorem contains_iff (sane : Sane f) (vKey : List UInt8) : f.contains vKey = some true ↔ Holds f vKey := by
  obtain ⟨found,looks,same⟩ := contains_spec sane vKey
  rw [looks,← same,Option.some.injEq]

theorem IsRelevantAndUpdate_spec (sane : Sane f) (tx : CTransaction) (hash : uint256) :
    ∃ found g, f.IsRelevantAndUpdate tx hash = some (found,g) ∧ Grows f g ∧ (Relevant (Holds f) tx hash → found = true) ∧
      ∀ i txout, MatchedOutput f tx hash i txout → f.updates txout.scriptPubKey = true → Holds g (COutPoint.Serialize ⟨hash,i⟩) := by
  rw [IsRelevantAndUpdate]
  cases full : f.isFull with
  | true => exact ⟨true,f,rfl,.refl f,fun _ => rfl,fun _ _ _ _ => .inl full⟩
  | false =>
    cases empty : f.isEmpty with
    | true =>
      have nothing : ∀ vKey, ¬ Holds f vKey := by
        rintro vKey (always | ⟨filled,_⟩)
        · simp [full] at always
        · simp [empty] at filled
      refine ⟨false,f,rfl,.refl f,fun relevant => ?_,?_⟩
      · rcases relevant with known | ⟨txin,_,spent | ⟨vch,_,_,held⟩⟩ | ⟨txout,_,vch,_,_,held⟩
        · exact absurd known (nothing _)
        · exact absurd spent (nothing _)
        · exact absurd held (nothing vch)
        · exact absurd held (nothing vch)
      · rintro i txout ⟨_,known,before,h,_,walked,vch,_,_,there⟩ _
        rw [updateOutputs_untouched sane hash (fun txout _ ⟨vch,_,_,held⟩ => nothing vch held)] at walked
        obtain ⟨_,rfl⟩ := Prod.mk.inj (Option.some.inj walked)
        exact absurd ((contains_iff sane vch).mp there) (nothing vch)
    | false =>
      obtain ⟨known,looks,knows⟩ := contains_spec sane (hashKey hash)
      obtain ⟨fFound,g,walks,grows,keeps,outputs⟩ := updateOutputs_spec sane hash 0 tx.vout known
      obtain ⟨found,looks',inputs⟩ := matchInputs_spec (grows.sane sane) tx.vin
      have puts : ∀ i txout, MatchedOutput f tx hash i txout → f.updates txout.scriptPubKey = true → Holds g (COutPoint.Serialize ⟨hash,i⟩) := by
        rintro i txout ⟨there,known',before,h,looks'',walked,vch,listed,filled,held⟩ flag
        obtain rfl := Option.some.inj (looks.symm.trans looks'')
        obtain ⟨before',h',walked',grows',finds⟩ := outputs i txout there
        obtain ⟨_,rfl⟩ := Prod.mk.inj (Option.some.inj (walked.symm.trans walked'))
        have put := (finds ⟨vch,listed,filled,(contains_iff (grows'.sane sane) vch).mp held⟩).2 flag
        rwa [Nat.zero_add] at put
      simp only [looks,walks,looks',Option.bind_eq_bind,Option.bind_some,reduceCtorEq,reduceIte]
      cases fFound with
      | true => exact ⟨true,g,rfl,grows,fun _ => rfl,puts⟩
      | false =>
        refine ⟨found,g,rfl,grows,fun relevant => ?_,puts⟩
        rcases relevant with hashed | spends | ⟨txout,listed,vch,pushed,filled,held⟩
        · exact absurd (keeps (knows.mpr hashed)) (by simp)
        · obtain ⟨txin,listed,touched⟩ := spends
          refine inputs.mpr ⟨txin,listed,?_⟩
          rcases touched with spent | ⟨vch,pushed,filled,held⟩
          · exact .inl (grows.holds spent)
          · exact .inr ⟨vch,pushed,filled,grows.holds held⟩
        · obtain ⟨k,there⟩ := List.mem_iff_getElem?.mp listed
          obtain ⟨_,_,_,grows',finds⟩ := outputs k txout there
          exact absurd (finds ⟨vch,pushed,filled,grows'.holds held⟩).1 (by simp)

end

/-! ### Runs -/

/-- The calls that change a filter. -/
inductive Call
  | insert (vKey : List UInt8)
  | insertOutPoint (outpoint : COutPoint)
  | insertHash (hash : uint256)
  | IsRelevantAndUpdate (tx : CTransaction) (hash : uint256)

def call (f : CBloomFilter) : Call → Option CBloomFilter
  | .insert vKey => f.insert vKey
  | .insertOutPoint outpoint => f.insert outpoint.Serialize
  | .insertHash hash => f.insert (hashKey hash)
  | .IsRelevantAndUpdate tx hash => (f.IsRelevantAndUpdate tx hash).map Prod.snd

def run (f : CBloomFilter) : List Call → Option CBloomFilter
  | [] => some f
  | c :: rest => (f.call c).bind fun g => run g rest

/-- What a call puts in. -/
def Puts (f : CBloomFilter) : Call → List UInt8 → Prop
  | .insert vKey, key => key = vKey
  | .insertOutPoint outpoint, key => key = outpoint.Serialize
  | .insertHash hash, key => key = hashKey hash
  | .IsRelevantAndUpdate tx hash, key =>
    ∃ i txout, MatchedOutput f tx hash i txout ∧ f.updates txout.scriptPubKey = true ∧ key = COutPoint.Serialize ⟨hash,i⟩

/-- What the calls of a run put in. -/
def Inserted (f : CBloomFilter) : List Call → List UInt8 → Prop
  | [], _ => False
  | c :: rest, key => Puts f c key ∨ ∃ g, f.call c = some g ∧ Inserted g rest key

section
variable {f : CBloomFilter}

theorem call_spec (sane : Sane f) (c : Call) : ∃ g, f.call c = some g ∧ Grows f g ∧ ∀ key, Puts f c key → Holds g key := by
  have inserts : ∀ vKey, ∃ g, f.insert vKey = some g ∧ Grows f g ∧ ∀ key, key = vKey → Holds g key := by
    intro vKey
    obtain ⟨g,inserted,grows,held⟩ := insert_spec sane vKey
    exact ⟨g,inserted,grows,fun key same => same ▸ held⟩
  cases c with
  | insert vKey => exact inserts vKey
  | insertOutPoint outpoint => exact inserts outpoint.Serialize
  | insertHash hash => exact inserts (hashKey hash)
  | IsRelevantAndUpdate tx hash =>
    obtain ⟨found,g,updates,grows,_,puts⟩ := IsRelevantAndUpdate_spec sane tx hash
    refine ⟨g,by rw [call,updates]; rfl,grows,?_⟩
    rintro key ⟨i,txout,matched,flag,rfl⟩
    exact puts i txout matched flag

theorem run_spec (sane : Sane f) (calls : List Call) : ∃ g, f.run calls = some g ∧ Grows f g ∧ ∀ key, Inserted f calls key → Holds g key := by
  induction calls generalizing f with
  | nil => exact ⟨f,rfl,.refl f,fun key none => none.elim⟩
  | cons c rest ih =>
    obtain ⟨g,called,grows,puts⟩ := call_spec sane c
    obtain ⟨h,ran,later,held⟩ := ih (grows.sane sane)
    refine ⟨h,by rw [run,called]; exact ran,grows.trans later,?_⟩
    rintro key (now | ⟨g',called',onwards⟩)
    · exact later.holds (puts key now)
    · obtain rfl := Option.some.inj (called.symm.trans called')
      exact held key onwards

theorem UpdateEmptyFull_sane (filter : CBloomFilter) : Sane filter.UpdateEmptyFull := by
  rintro open_ none
  rw [UpdateEmptyFull] at open_ none
  rw [show filter.vData = [] from none] at open_
  contradiction

theorem Relevant.imp {keys keys' : List UInt8 → Prop} (all : ∀ key, keys key → keys' key) {tx : CTransaction} {hash : uint256}
    (relevant : Relevant keys tx hash) : Relevant keys' tx hash := by
  rcases relevant with known | ⟨txin,listed,spent | ⟨vch,pushed,filled,key⟩⟩ | ⟨txout,listed,vch,pushed,filled,key⟩
  · exact .inl (all _ known)
  · exact .inr (.inl ⟨txin,listed,.inl (all _ spent)⟩)
  · exact .inr (.inl ⟨txin,listed,.inr ⟨vch,pushed,filled,all _ key⟩⟩)
  · exact .inr (.inr ⟨txout,listed,vch,pushed,filled,all _ key⟩)

/-- Whatever a filter was made of, after any calls it contains what was put in, finds what
    touches it, and has put in the outpoints of the outputs that matched; nothing is divided
    by zero or looked up outside of the bytes. -/
theorem CBloomFilter_no_false_negatives (filter : CBloomFilter) (calls : List Call) :
    ∃ f, filter.UpdateEmptyFull.run calls = some f ∧ (∀ key, Inserted filter.UpdateEmptyFull calls key → f.contains key = some true) ∧
      (∀ key, ∃ found, f.contains key = some found) ∧
      ∀ tx hash, ∃ found g, f.IsRelevantAndUpdate tx hash = some (found,g) ∧
        (Relevant (Inserted filter.UpdateEmptyFull calls) tx hash → found = true) ∧
        ∀ i txout, MatchedOutput f tx hash i txout → f.updates txout.scriptPubKey = true →
          g.contains (COutPoint.Serialize ⟨hash,i⟩) = some true := by
  have start := filter.UpdateEmptyFull_sane
  obtain ⟨f,ran,grows,held⟩ := run_spec start calls
  have sane := grows.sane start
  refine ⟨f,ran,fun key inserted => (contains_iff sane key).mpr (held key inserted),fun key => ?_,fun tx hash => ?_⟩
  · obtain ⟨found,looks,_⟩ := contains_spec sane key
    exact ⟨found,looks⟩
  · obtain ⟨found,g,updates,grows',finds,puts⟩ := IsRelevantAndUpdate_spec sane tx hash
    refine ⟨found,g,updates,fun relevant => finds (relevant.imp held),fun i txout matched flag => ?_⟩
    exact (contains_iff (grows'.sane sane) _).mpr (puts i txout matched flag)

end

end CBloomFilter
end Tetra
