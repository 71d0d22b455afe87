import Mathlib
import Tetra.CashLaws
import Tetra.CashOrder
import Tetra.Double
import Tetra.Pool
import Tetra.Primitives

/-!
The calls that ask for a payment: the amounts as JSON gives them, the check of the
account or the wallet, and the queue that `sendmany` appends to.
-/
namespace Tetra
open Std

/-- An array of objects with a `Circuit` and an `Amount`, the amounts as doubles. -/
abbrev JsonAmount := List (CashName × ℚ)

/-- `get_real() * COIN`, cut to an integer. -/
def amountOfReal (x : ℚ) : Amount := Int64.ofInt (Double.truncate (Double.round (x*100)))

/-- `(double) amount / (double) COIN` -/
def realOfAmount (amount : Amount) : ℚ := Double.round (Double.round amount.toInt/100)

/-- The constructor from a JSON value. -/
def Cash.ofJson (value : JsonAmount) : Cash := ⟨value.foldl (fun acc e => acc.insert e.1 (amountOfReal e.2)) ∅,0⟩
def Cash.ToJSON (x : Cash) : JsonAmount := x.locals.toList.map fun e => (e.1,realOfAmount e.2)

inductive RpcCode
  | RPC_TYPE_ERROR
  | RPC_INVALID_ADDRESS_OR_KEY
  | RPC_INVALID_PARAMETER
  | RPC_WALLET_INVALID_ACCOUNT_NAME
  | RPC_WALLET_UNLOCK_NEEDED
  | RPC_WALLET_INSUFFICIENT_FUNDS
  | RPC_WALLET_ERROR
deriving DecidableEq

/-- `JSONRPCError(code, message + name)` -/
structure RpcError where
  code : RpcCode
  message : String
  name : Text := []
deriving DecidableEq

def AccountFromValue (strAccount : Text) : Except RpcError Text :=
  if strAccount = [42] then .error ⟨.RPC_WALLET_INVALID_ACCOUNT_NAME,"Invalid account name",[]⟩ else .ok strAccount

def CashFromValue (value : JsonAmount) : Except RpcError Cash :=
  let nAmount := Cash.ofJson value
  if nAmount.leAmount 0 then .error ⟨.RPC_TYPE_ERROR,"Invalid amount",[]⟩
  else if !MoneyRange nAmount then .error ⟨.RPC_TYPE_ERROR,"Invalid amount",[]⟩
  else .ok nAmount

/-- `CBitcoinAddress`: what a text decodes to, if it is valid, and the script that pays there. -/
structure Addresses (Address : Type) where
  decode : Text → Option Address
  SetDestination : Address → CScript

/-- What the calls below ask the node for. -/
structure Rpc (Address : Type) extends Addresses Address where
  IsLocked : Bool
  GetAccountBalance : Text → Int → Cash
  GetBalance : Cash
  nTransactionFee : Fees
  /-- `SendMoney`, which answers with the text of an error, or with none. -/
  SendMoney : CScript → Cash → String

def EnsureWalletIsUnlocked (IsLocked : Bool) : Except RpcError Unit :=
  if IsLocked then
    .error ⟨.RPC_WALLET_UNLOCK_NEEDED,"Error: Please enter the wallet passphrase with walletpassphrase first.",[]⟩
  else .ok ()

/-- `totalAmount`, `setAddress` and `vecSend`. -/
structure Totals (Address : Type) where
  totalAmount : Cash := {}
  setAddress : List Address := []
  vecSend : List (CScript × Cash) := []

section
variable {Address : Type} [DecidableEq Address]

def TotalAmountFromObject (addresses : Addresses Address) (totals : Totals Address) :
    List (Text × JsonAmount) → Except RpcError (Totals Address)
  | [] => .ok totals
  | (name,value) :: rest =>
    match addresses.decode name with
    | none => .error ⟨.RPC_INVALID_ADDRESS_OR_KEY,"Invalid Tetra address: ",name⟩
    | some address =>
      if address ∈ totals.setAddress then .error ⟨.RPC_INVALID_PARAMETER,"Invalid parameter, duplicated address: ",name⟩
      else match CashFromValue value with
        | .error error => .error error
        | .ok nAmount => TotalAmountFromObject addresses
          ⟨totals.totalAmount.addAssign nAmount,address :: totals.setAddress,
            totals.vecSend ++ [(addresses.SetDestination address,nAmount)]⟩ rest

namespace Rpc

def SendMoneyToDestination (rpc : Rpc Address) (address : Address) (nValue : Cash) : String :=
  if nValue.leAmount 0 then "Invalid amount"
  else if (nValue.addFees rpc.nTransactionFee).gt rpc.GetBalance then "Insufficient funds"
  else rpc.SendMoney (rpc.SetDestination address) nValue

/-- What `sendfrom` checks before the funds. -/
def sendfromParams (rpc : Rpc Address) (account destination : Text) (amount : JsonAmount) : Except RpcError (Address × Cash) := do
  let _ ← AccountFromValue account
  match rpc.decode destination with
  | none => .error ⟨.RPC_INVALID_ADDRESS_OR_KEY,"Invalid Tetra address",[]⟩
  | some address =>
    let nAmount ← CashFromValue amount
    EnsureWalletIsUnlocked rpc.IsLocked
    .ok (address,nAmount)

/-- `sendfrom`; the payment is made when there is no error. -/
def sendfrom (rpc : Rpc Address) (account destination : Text) (amount : JsonAmount) (nMinDepth : Int) : Except RpcError Unit := do
  let (address,nAmount) ← rpc.sendfromParams account destination amount
  if nAmount.gt (rpc.GetAccountBalance account nMinDepth) then
    .error ⟨.RPC_WALLET_INSUFFICIENT_FUNDS,"Account has insufficient funds",[]⟩
  else
    let strError := rpc.SendMoneyToDestination address nAmount
    if strError ≠ "" then .error ⟨.RPC_WALLET_ERROR,strError,[]⟩ else .ok ()

end Rpc
end

namespace DummyParams

/-- The constructor from the parameters of `sendmany`. -/
def ofParams (account : Text) (sendTo : List (Text × JsonAmount)) : DummyParams :=
  ⟨account,sendTo.foldl (fun acc s => acc.insert s.1 (Cash.ofJson s.2)) ∅⟩

/-- `ToArray`: the account and the object of addresses and amounts. -/
def ToArray (p : DummyParams) : Text × List (Text × JsonAmount) :=
  (p.Account,p.Target.toList.map fun t => (t.1,t.2.ToJSON))

end DummyParams

section
variable {Address : Type} [DecidableEq Address]

/-- What `sendmany` checks before the funds: the amount of all payees together. -/
def sendmanyTotal (addresses : Addresses Address) (account : Text) (sendTo : List (Text × JsonAmount)) : Except RpcError Cash := do
  let _ ← AccountFromValue account
  let totals ← TotalAmountFromObject addresses {} sendTo
  .ok totals.totalAmount

/-- What the account has left: its balance less what is queued for it. -/
def unallocated (balance : Cash) (plist : ParamList) (account : Text) : Cash :=
  balance.sub (CTxWPool.AllocatedBalance plist account {})

end
end Tetra
