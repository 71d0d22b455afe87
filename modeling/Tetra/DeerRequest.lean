import Mathlib
import Tetra.Accounts
import Tetra.Block
import Tetra.SendMany

/-!
Requests that the holder of a key signs: the key as a text of hexadecimal digits, the
text that is signed, and the checks before the signature is looked at.
-/
namespace Tetra.Deer
open Std

/-! ### Hexadecimal texts -/

def isspace (c : UInt8) : Bool := c == 32 || decide (9 ≤ c ∧ c ≤ 13)

/-- The value of a digit, and 0 for any other character. -/
def phexdigit (c : UInt8) : UInt8 :=
  if 0x30 ≤ c ∧ c ≤ 0x39 then c-0x30
  else if 0x41 ≤ c ∧ c ≤ 0x46 then c-0x37
  else if 0x61 ≤ c ∧ c ≤ 0x66 then c-0x57
  else 0

def isHex (c : UInt8) : Bool := phexdigit c != 0 || c == 0x30

/-- Two digits a byte; the last digit of an odd number is an upper half. -/
def digitBytes : Text → List UInt8
  | high :: low :: rest => (phexdigit high <<< 4 ||| phexdigit low) :: digitBytes rest
  | [high] => [phexdigit high <<< 4]
  | [] => []

/-- The bytes that the digits after the leading spaces fill, at most `WIDTH` of them. -/
def hexBytes (text : Text) (WIDTH : Nat) : List UInt8 := (digitBytes ((text.dropWhile isspace).takeWhile isHex)).take WIDTH

/-- How long a key is by its first byte. -/
def GetLen (chHeader : UInt8) : Nat :=
  if chHeader = 2 ∨ chHeader = 3 then 33
  else if chHeader = 4 ∨ chHeader = 6 ∨ chHeader = 7 then 65
  else 0

/-- `hex[0] == 'f' && tolower(hex[1]) == 'f'` -/
def startsFf : Text → Bool
  | first :: second :: _ => first == 0x66 && (second == 0x66 || second == 0x46)
  | _ => false

/-- `CPubKey::SetHex` with the bytes that the key's memory held. What a long text
    writes past those of the key is not part of it. -/
def SetHex (memory : Nat → UInt8) (hex : Text) (WIDTH : Nat) : CPubKey :=
  let vch i := (hexBytes hex WIDTH)[i]?.getD (if i ≤ WIDTH then 0xFF else memory i)
  if startsFf (hex.dropWhile isspace) then [] else (List.range (GetLen (vch 0))).map vch

def HexToPbk (memory : Nat → UInt8) (s : Text) : CPubKey := SetHex memory s (s.length/2)

/-- Bytes without a digit are what the memory held. -/
def strToHex (memory : Nat → UInt8) (s : Text) : List UInt8 :=
  (List.range (s.length/2)).map fun i => (hexBytes s (s.length/2))[i]?.getD (memory i)

/-- `strprintf("%lld", n)` -/
def decimal (n : Int64) : Text :=
  let digits : Text := (Nat.toDigits 10 n.toInt.natAbs).map fun c => UInt8.ofNat c.toNat
  if n.toInt < 0 then 0x2D :: digits else digits

/-! ### Requests -/

def MINTIMEMARGIN : Int64 := 24*60*60

structure KeyRequest where
  pbk : Text
  time : Int64
  id : Text
  sig : Text
deriving DecidableEq

/-- `deerwallet <call> <objectrequest>` -/
inductive DeerCall
  | CreateAccount (request : KeyRequest)
  | GetBalance (request : KeyRequest)
  | ListTransactions (request : KeyRequest)
  | CreateTransaction (request : KeyRequest) (address circuit : Text) (amount : Int64)
deriving DecidableEq

namespace DeerCall

def request : DeerCall → KeyRequest
  | .CreateAccount r | .GetBalance r | .ListTransactions r | .CreateTransaction r _ _ _ => r

/-- `catstr`, the text whose hash is signed. -/
def signed : DeerCall → Text
  | .CreateAccount r | .GetBalance r | .ListTransactions r => r.pbk ++ decimal r.time ++ r.id
  | .CreateTransaction r address circuit amount => r.pbk ++ address ++ circuit ++ decimal amount ++ decimal r.time ++ r.id

/-- What a request asks for, without the signature. -/
def asks : DeerCall → DeerCall
  | .CreateAccount r => .CreateAccount {r with sig := []}
  | .GetBalance r => .GetBalance {r with sig := []}
  | .ListTransactions r => .ListTransactions {r with sig := []}
  | .CreateTransaction r address circuit amount => .CreateTransaction {r with sig := []} address circuit amount

end DeerCall

section
variable {Address : Type}

/-- What the node computes outside its own logic. -/
structure DeerRules (Address : Type) extends Addresses Address where
  Hash : Text → uint256
  Verify : CPubKey → uint256 → List UInt8 → Bool

/-- A call finds the time, and what the memory of its key and of its signature held. -/
structure Arrival where
  GetAdjustedTime : Int64
  keyMemory : Nat → UInt8 := fun _ => 0
  sigMemory : Nat → UInt8 := fun _ => 0

/-- The checks that the handlers share: the time, the key, and that the account is there,
    or that it is not. -/
def checkRequest (m : Arrival) (wallet : AccountWallet) (r : KeyRequest) (registered : Bool) : Except Reject CPubKey :=
  if m.GetAdjustedTime-r.time ≥ MINTIMEMARGIN then .error (.plain "deerwallet : request time should be done right now!") else
  let pbk := HexToPbk m.keyMemory r.pbk
  if pbk.isEmpty then .error (.plain "deerwallet : your public key is not valid!") else
  match wallet.listaccounts 1 with
  | .error e => .error e
  | .ok alist =>
    if registered then
      if r.pbk ∈ alist then .ok pbk else .error (.plain "deerwallet : you are not yet registered!")
    else
      if r.pbk ∈ alist then .error (.plain "deerwallet : you have already registered!") else .ok pbk

/-- Everything a handler checks before the signature; the key that it is checked with. -/
def checks (rules : DeerRules Address) (m : Arrival) (wallet : AccountWallet) : DeerCall → Except Reject CPubKey
  | .CreateAccount r => checkRequest m wallet r false
  | .GetBalance r | .ListTransactions r => checkRequest m wallet r true
  | .CreateTransaction r address _ _ =>
    match checkRequest m wallet r true with
    | .error e => .error e
    | .ok pbk => if (rules.decode address).isNone then .error (.plain "deerwallet : this tetrad address is not valid!") else .ok pbk

/-- The refusal of `CreateAccount` goes on with the hash and a signature of "foobar". -/
def authorise (rules : DeerRules Address) (m : Arrival) (wallet : AccountWallet) (call : DeerCall) : Except Reject CPubKey :=
  match checks rules m wallet call with
  | .error e => .error e
  | .ok pbk =>
    if rules.Verify pbk (rules.Hash call.signed) (strToHex m.sigMemory call.request.sig) = false then
      .error (.plain "deerwallet : invalid signature!")
    else .ok pbk

/-! ### Which texts are keys -/

/-- A valid key has two digits at least, whatever follows them. -/
theorem hexBytes_extend {text : Text} {WIDTH : Nat} (valid : GetLen ((hexBytes text WIDTH)[0]?.getD 0xFF) ≠ 0) (more : Text)
    {WIDTH' : Nat} (wider : WIDTH ≤ WIDTH') :
    (hexBytes (text ++ more) WIDTH')[0]? = (hexBytes text WIDTH)[0]? ∧
      ∃ high low rest, text.dropWhile isspace = high :: low :: rest ∧ (text ++ more).dropWhile isspace = high :: low :: (rest ++ more) := by
  cases WIDTH with
  | zero => exact absurd (by simp [hexBytes]; decide) valid
  | succ w =>
    obtain ⟨w',rfl⟩ : ∃ w', WIDTH' = w'+1 := ⟨WIDTH'-1,by omega⟩
    cases trimmed : text.dropWhile isspace with
    | nil => exact absurd (by simp [hexBytes,trimmed,digitBytes]; decide) valid
    | cons high rest =>
      have kept : (text ++ more).dropWhile isspace = high :: (rest ++ more) := by
        rw [List.dropWhile_append,trimmed]
        rfl
      cases isDigit : isHex high with
      | false => exact absurd (by simp [hexBytes,trimmed,isDigit,digitBytes]; decide) valid
      | true =>
        -- An upper half alone is no header.
        have half : ∀ c : UInt8, GetLen (phexdigit c <<< 4) = 0 := by decide +kernel
        cases rest with
        | nil => exact absurd (by simp [hexBytes,trimmed,isDigit,digitBytes,half]) valid
        | cons low rest =>
          cases isDigit' : isHex low with
          | false => exact absurd (by simp [hexBytes,trimmed,isDigit,isDigit',digitBytes,half]) valid
          | true =>
            refine ⟨?_,high,low,rest,rfl,kept⟩
            simp [hexBytes,trimmed,kept,isDigit,isDigit',digitBytes]

theorem HexToPbk_valid_iff (memory : Nat → UInt8) (s : Text) :
    HexToPbk memory s ≠ [] ↔ startsFf (s.dropWhile isspace) = false ∧ GetLen ((hexBytes s (s.length/2))[0]?.getD 0xFF) ≠ 0 := by
  unfold HexToPbk SetHex
  cases startsFf (s.dropWhile isspace) <;> simp

/-- A text that starts with one that is a key is a key. -/
theorem HexToPbk_extend {memory : Nat → UInt8} {s : Text} (valid : HexToPbk memory s ≠ []) (more : Text) :
    HexToPbk memory (s ++ more) ≠ [] := by
  obtain ⟨plain,header⟩ := (HexToPbk_valid_iff ..).mp valid
  have wider : s.length/2 ≤ (s ++ more).length/2 := by
    rw [List.length_append]
    omega
  obtain ⟨first,high,low,rest,trimmed,kept⟩ := hexBytes_extend header more wider
  rw [HexToPbk_valid_iff,first,kept]
  rw [trimmed] at plain
  exact ⟨plain,header⟩

/-! ### The accounts of a wallet -/

theorem mem_ownAccounts_iff (wallet : AccountWallet) (strAccount : AccountName) :
    strAccount ∈ wallet.ownAccounts ↔ ∃ address, wallet.mapAddressBook[address]? = some strAccount ∧ wallet.IsMineAddress address = true := by
  have inserted : ∀ (entries : List (CTxDestination × AccountName)) (start : AccountWallet.Balances),
      strAccount ∈ entries.foldl (fun balances entry =>
        if wallet.IsMineAddress entry.1 then balances.insert entry.2 (Cash.assignAmount 0) else balances) start ↔
      strAccount ∈ start ∨ ∃ entry ∈ entries, wallet.IsMineAddress entry.1 = true ∧ entry.2 = strAccount := by
    intro entries
    induction entries with
    | nil => simp
    | cons entry rest ih =>
      intro start
      rw [List.foldl_cons,ih]
      by_cases mine : wallet.IsMineAddress entry.1 = true
      · simp [mine,ExtTreeMap.mem_insert,or_assoc,or_left_comm]
      · simp [mine]
  rw [AccountWallet.ownAccounts,inserted]
  constructor
  · rintro (start | ⟨⟨address,name⟩,member,mine,rfl⟩)
    · simp at start
    · exact ⟨address,ExtTreeMap.mem_toList_iff_getElem?_eq_some.mp member,mine⟩
  · rintro ⟨address,found,mine⟩
    exact .inr ⟨(address,strAccount),ExtTreeMap.mem_toList_iff_getElem?_eq_some.mpr found,mine,rfl⟩

theorem mem_update {balances : AccountWallet.Balances} {strAccount : AccountName} (listed : strAccount ∈ balances) (name : AccountName)
    (f : Cash → Cash) : strAccount ∈ AccountWallet.update balances name f := by
  rw [AccountWallet.update,ExtTreeMap.mem_insert]
  exact .inr listed

theorem mem_foldl_update {ι : Type*} {balances : AccountWallet.Balances} {strAccount : AccountName} (listed : strAccount ∈ balances)
    (name : ι → AccountName) (f : ι → Cash → Cash) (entries : List ι) :
    strAccount ∈ entries.foldl (fun balances e => AccountWallet.update balances (name e) (f e)) balances := by
  induction entries generalizing balances with
  | nil => exact listed
  | cons e rest ih => exact ih (mem_update listed ..)

/-- `listaccounts` names every account of the wallet's own addresses. -/
theorem mem_listaccounts {wallet : AccountWallet} {nMinDepth : Int} {alist : AccountWallet.Balances}
    (lists : wallet.listaccounts nMinDepth = .ok alist) {strAccount : AccountName} (own : strAccount ∈ wallet.ownAccounts) :
    strAccount ∈ alist := by
  have visited : ∀ (txs : List AccountTx) (start balances : AccountWallet.Balances), strAccount ∈ start →
      wallet.traverse (fun _ => false) (wallet.tallyMap nMinDepth) txs start = .ok balances → strAccount ∈ balances := by
    intro txs
    induction txs with
    | nil =>
      intro start balances listed traverses
      obtain rfl := Except.ok.inj traverses
      exact listed
    | cons wtx rest ih =>
      intro start balances listed traverses
      rw [AccountWallet.traverse,if_neg Bool.false_ne_true] at traverses
      split at traverses
      · contradiction
      next amounts _ =>
        refine ih _ balances ?_ traverses
        rw [AccountWallet.tallyMap]
        have sent := mem_foldl_update (mem_update listed amounts.strSentAccount fun balance => balance.subFees amounts.nFee)
          (fun _ => amounts.strSentAccount) (fun s balance => balance.subAssign s.2) amounts.listSent
        split
        · exact mem_foldl_update sent (fun r => wallet.accountOf r.1) (fun r balance => balance.addAssign r.2) amounts.listReceived
        · exact sent
  unfold AccountWallet.listaccounts at lists
  split at lists
  · contradiction
  next balances traverses =>
    obtain rfl := Except.ok.inj lists
    exact mem_foldl_update (visited _ _ _ own traverses) CAccountingEntry.strAccount (fun entry balance => balance.addAssign entry.nCreditDebit) _

/-- A wallet without transactions; its address book has one name of its own, or none. -/
private def walletOf (name : Option Text) : AccountWallet where
  mapWallet := ∅
  mapAddressBook := match name with | some name => (∅ : ExtTreeMap CTxDestination AccountName).insert (.CKeyID 0) name | none => ∅
  IsMineScript := fun _ => false
  IsMineAddress := fun _ => true
  ExtractDestination := fun _ => none

private theorem listaccounts_walletOf (name : Option Text) :
    ∃ alist, (walletOf name).listaccounts 1 = .ok alist ∧ ∀ s, s ∈ alist ↔ name = some s := by
  have lists : (walletOf name).listaccounts 1 = .ok (walletOf name).ownAccounts := by
    have alone : (walletOf name).txs = [] := by simp [AccountWallet.txs,walletOf]
    rw [AccountWallet.listaccounts,alone,AccountWallet.traverse]
    rfl
  refine ⟨_,lists,fun s => ?_⟩
  rw [mem_ownAccounts_iff]
  cases name with
  | none => simp [walletOf]
  | some label =>
    constructor
    · rintro ⟨address,found,_⟩
      simp only [walletOf,ExtTreeMap.getElem?_insert,ExtTreeMap.getElem?_empty] at found
      split at found
      · exact found
      · contradiction
    · intro same
      exact ⟨.CKeyID 0,by simpa [walletOf] using same,rfl⟩

/-! ### What one signature allows -/

variable {rules : DeerRules Address} {m : Arrival} {wallet : AccountWallet}

theorem checkRequest_ok {r : KeyRequest} {registered : Bool} {pbk : CPubKey} (passes : checkRequest m wallet r registered = .ok pbk) :
    ¬m.GetAdjustedTime-r.time ≥ MINTIMEMARGIN ∧ pbk = HexToPbk m.keyMemory r.pbk ∧ pbk ≠ [] := by
  unfold checkRequest at passes
  dsimp only at passes
  split at passes
  · contradiction
  next inTime =>
    split at passes
    · contradiction
    next valid =>
      have given : pbk = HexToPbk m.keyMemory r.pbk := by
        split at passes
        · contradiction
        · split at passes <;> split at passes <;> simp_all
      refine ⟨inTime,given,?_⟩
      rw [given]
      simpa using valid

/-- A key and a time that pass are enough, with the right wallet. -/
theorem exists_checkRequest {r : KeyRequest} (inTime : ¬m.GetAdjustedTime-r.time ≥ MINTIMEMARGIN) (valid : HexToPbk m.keyMemory r.pbk ≠ [])
    (registered : Bool) : ∃ wallet', checkRequest m wallet' r registered = .ok (HexToPbk m.keyMemory r.pbk) := by
  refine ⟨walletOf (if registered then some r.pbk else none),?_⟩
  obtain ⟨alist,lists,names⟩ := listaccounts_walletOf (if registered then some r.pbk else none)
  have nonempty : (HexToPbk m.keyMemory r.pbk).isEmpty = false := by simpa using valid
  unfold checkRequest
  rw [if_neg inTime,lists]
  have listed := names r.pbk
  cases registered with
  | true => simp_all
  | false => simp_all

/-- Every request that passes the checks has the text of another one that passes them:
    its signature is good for both. -/
theorem signed_ambiguous (rules : DeerRules Address) (m : Arrival) (wallet : AccountWallet) (call : DeerCall) (pbk : CPubKey)
    (passes : checks rules m wallet call = .ok pbk) :
    ∃ other m' wallet' pbk', checks rules m' wallet' other = .ok pbk' ∧ other.asks ≠ call.asks ∧ other.signed = call.signed := by
  cases call with
  | CreateAccount r =>
    obtain ⟨inTime,rfl,valid⟩ := checkRequest_ok passes
    obtain ⟨wallet',registered⟩ := exists_checkRequest inTime valid true
    exact ⟨.GetBalance r,m,wallet',_,registered,by simp [DeerCall.asks],rfl⟩
  | GetBalance r => exact ⟨.ListTransactions r,m,wallet,pbk,passes,by simp [DeerCall.asks],rfl⟩
  | ListTransactions r => exact ⟨.GetBalance r,m,wallet,pbk,passes,by simp [DeerCall.asks],rfl⟩
  | CreateTransaction r address circuit amount =>
    have opened : ∃ key, checkRequest m wallet r true = .ok key := by
      simp only [checks] at passes
      split at passes
      · contradiction
      next key opens => exact ⟨key,opens⟩
    obtain ⟨key,opens⟩ := opened
    obtain ⟨inTime,rfl,valid⟩ := checkRequest_ok opens
    -- The payment's text is that of an account whose key goes on with the payment.
    let longer : KeyRequest := {r with pbk := r.pbk ++ (address ++ circuit ++ decimal amount)}
    obtain ⟨wallet',fresh⟩ := @exists_checkRequest m longer inTime (HexToPbk_extend valid _) false
    refine ⟨.CreateAccount longer,m,wallet',_,fresh,by simp [DeerCall.asks],?_⟩
    simp [DeerCall.signed,longer]

/-- The characters of a number, back from its bytes. -/
private theorem toDigits_back (n : Nat) :
    ((Nat.toDigits 10 n).map fun c => UInt8.ofNat c.toNat).map (fun b => Char.ofNat b.toNat) = Nat.toDigits 10 n := by
  have same : ∀ c ∈ Nat.toDigits 10 n, Char.ofNat (UInt8.ofNat c.toNat).toNat = c := by
    intro c member
    have digit := Nat.isDigit_of_mem_toDigits (by decide) (by decide) member
    have low : c.toNat ≤ 57 := by
      simp only [Char.isDigit,Bool.and_eq_true,decide_eq_true_eq] at digit
      exact UInt32.le_iff_toNat_le.mp digit.2
    rw [UInt8.toNat_ofNat',Nat.mod_eq_of_lt (by omega),Char.ofNat_toNat]
  rw [List.map_map]
  exact (List.map_congr_left same).trans (List.map_id _)

theorem decimal_injective : Function.Injective decimal := by
  intro a b same
  have magnitude : ∀ {m n : Nat}, ((Nat.toDigits 10 m).map fun c => UInt8.ofNat c.toNat) = (Nat.toDigits 10 n).map (fun c => UInt8.ofNat c.toNat) →
      m = n := by
    intro m n equal
    have digits := congrArg (List.map fun b => Char.ofNat (UInt8.toNat b)) equal
    rw [toDigits_back,toDigits_back] at digits
    rw [← Nat.ofDigitChars_ten_toDigits (n := m),digits,Nat.ofDigitChars_ten_toDigits]
  -- No digit is a minus sign.
  have unsigned : ∀ {m : Nat} {rest : Text}, ((Nat.toDigits 10 m).map fun c => UInt8.ofNat c.toNat) ≠ 0x2D :: rest := by
    intro m rest equal
    obtain ⟨c,member,minus⟩ := List.mem_map.mp (equal ▸ List.mem_cons_self ..)
    have digit := Nat.isDigit_of_mem_toDigits (by decide) (by decide) member
    simp only [Char.isDigit,Bool.and_eq_true,decide_eq_true_eq] at digit
    have high : 48 ≤ c.toNat := UInt32.le_iff_toNat_le.mp digit.1
    have low : c.toNat ≤ 57 := UInt32.le_iff_toNat_le.mp digit.2
    have value : c.toNat%256 = 45 := by
      rw [← UInt8.toNat_ofNat',minus]
      rfl
    omega
  unfold decimal at same
  dsimp only at same
  apply Int64.toInt_inj.mp
  split at same
  · split at same
    · have := magnitude (List.cons.inj same).2
      omega
    · exact absurd same.symm unsigned
  · split at same
    · exact absurd same unsigned
    · have := magnitude same
      omega

/-- Two payments can only share a text when some field of one is longer than that of the
    other. -/
theorem asks_eq_of_lengths {r r' : KeyRequest} {address address' circuit circuit' : Text} {amount amount' : Int64}
    (key : r.pbk.length = r'.pbk.length) (addresses : address.length = address'.length) (circuits : circuit.length = circuit'.length)
    (amounts : (decimal amount).length = (decimal amount').length) (times : (decimal r.time).length = (decimal r'.time).length)
    (same : (DeerCall.CreateTransaction r address circuit amount).signed = (DeerCall.CreateTransaction r' address' circuit' amount').signed) :
    (DeerCall.CreateTransaction r address circuit amount).asks = (DeerCall.CreateTransaction r' address' circuit' amount').asks := by
  simp only [DeerCall.signed,List.append_assoc] at same
  obtain ⟨sameKey,same⟩ := List.append_inj same key
  obtain ⟨sameAddress,same⟩ := List.append_inj same addresses
  obtain ⟨sameCircuit,same⟩ := List.append_inj same circuits
  obtain ⟨sameAmount,same⟩ := List.append_inj same amounts
  obtain ⟨sameTime,sameId⟩ := List.append_inj same times
  simp [DeerCall.asks,sameKey,sameAddress,sameCircuit,decimal_injective sameAmount,decimal_injective sameTime,sameId]

end

/-! ### Two payments -/

private def payerKey : CPubKey := 2 :: List.replicate 32 0xAA
private def payerText : Text := 0x30 :: 0x32 :: List.replicate 64 0x61
private def anyAddress : DeerRules Unit where
  decode := fun _ => some ()
  SetDestination := fun _ => []
  Hash := List.length
  Verify := fun _ _ _ => true

/-- So much of a circuit, sent at some time. -/
private def payment (amount time : Int64) : DeerCall := .CreateTransaction ⟨payerText,time,[],[]⟩ [0x74] EUR amount

/-- One unit far in the future, or twelve now. -/
theorem payments_collide :
    checks anyAddress ⟨1400000000,fun _ => 0,fun _ => 0⟩ (walletOf (some payerText)) (payment 1 21400000000) = .ok payerKey ∧
    checks anyAddress ⟨1400000000,fun _ => 0,fun _ => 0⟩ (walletOf (some payerText)) (payment 12 1400000000) = .ok payerKey ∧
    (payment 1 21400000000).asks ≠ (payment 12 1400000000).asks ∧
    (payment 1 21400000000).signed = (payment 12 1400000000).signed := by
  refine ⟨?_,?_,?_,?_⟩ <;> decide +kernel

theorem signed_ambiguous_sample :
    ∃ other m' wallet' pbk', checks anyAddress m' wallet' other = .ok pbk' ∧ other.asks ≠ (payment 12 1400000000).asks ∧
      other.signed = (payment 12 1400000000).signed :=
  signed_ambiguous anyAddress ⟨1400000000,fun _ => 0,fun _ => 0⟩ (walletOf (some payerText)) (payment 12 1400000000) payerKey
    (by decide +kernel)

end Tetra.Deer
