import Tetra.Script

/-!
The operations of a script by their bytes.
-/
namespace Tetra.CScript

/-! ### Pushing values -/

def OP_1NEGATE : Nat := 0x4f

/-! ### Control -/

def OP_NOP : Nat := 0x61
def OP_IF : Nat := 0x63
def OP_NOTIF : Nat := 0x64
def OP_ELSE : Nat := 0x67
def OP_ENDIF : Nat := 0x68
def OP_VERIFY : Nat := 0x69
def OP_RETURN : Nat := 0x6a

/-! ### Stack -/

def OP_TOALTSTACK : Nat := 0x6b
def OP_FROMALTSTACK : Nat := 0x6c
def OP_2DROP : Nat := 0x6d
def OP_2DUP : Nat := 0x6e
def OP_3DUP : Nat := 0x6f
def OP_2OVER : Nat := 0x70
def OP_2ROT : Nat := 0x71
def OP_2SWAP : Nat := 0x72
def OP_IFDUP : Nat := 0x73
def OP_DEPTH : Nat := 0x74
def OP_DROP : Nat := 0x75
def OP_DUP : Nat := 0x76
def OP_NIP : Nat := 0x77
def OP_OVER : Nat := 0x78
def OP_PICK : Nat := 0x79
def OP_ROLL : Nat := 0x7a
def OP_ROT : Nat := 0x7b
def OP_SWAP : Nat := 0x7c
def OP_TUCK : Nat := 0x7d

/-! ### Strings and bits -/

def OP_CAT : Nat := 0x7e
def OP_SUBSTR : Nat := 0x7f
def OP_LEFT : Nat := 0x80
def OP_RIGHT : Nat := 0x81
def OP_SIZE : Nat := 0x82
def OP_INVERT : Nat := 0x83
def OP_AND : Nat := 0x84
def OP_OR : Nat := 0x85
def OP_XOR : Nat := 0x86
def OP_EQUALVERIFY : Nat := 0x88

/-! ### Numbers -/

def OP_1ADD : Nat := 0x8b
def OP_1SUB : Nat := 0x8c
def OP_2MUL : Nat := 0x8d
def OP_2DIV : Nat := 0x8e
def OP_NEGATE : Nat := 0x8f
def OP_ABS : Nat := 0x90
def OP_NOT : Nat := 0x91
def OP_0NOTEQUAL : Nat := 0x92
def OP_ADD : Nat := 0x93
def OP_SUB : Nat := 0x94
def OP_MUL : Nat := 0x95
def OP_DIV : Nat := 0x96
def OP_MOD : Nat := 0x97
def OP_LSHIFT : Nat := 0x98
def OP_RSHIFT : Nat := 0x99
def OP_BOOLAND : Nat := 0x9a
def OP_BOOLOR : Nat := 0x9b
def OP_NUMEQUAL : Nat := 0x9c
def OP_NUMEQUALVERIFY : Nat := 0x9d
def OP_NUMNOTEQUAL : Nat := 0x9e
def OP_LESSTHAN : Nat := 0x9f
def OP_GREATERTHAN : Nat := 0xa0
def OP_LESSTHANOREQUAL : Nat := 0xa1
def OP_GREATERTHANOREQUAL : Nat := 0xa2
def OP_MIN : Nat := 0xa3
def OP_MAX : Nat := 0xa4
def OP_WITHIN : Nat := 0xa5

/-! ### Hashes and signatures -/

def OP_RIPEMD160 : Nat := 0xa6
def OP_SHA1 : Nat := 0xa7
def OP_SHA256 : Nat := 0xa8
def OP_HASH256 : Nat := 0xaa
def OP_CODESEPARATOR : Nat := 0xab

/-- The first of ten further operations that do nothing. -/
def OP_NOP1 : Nat := 0xb0

/-- A script with any of these fails, executed or not. -/
def disabled : List Nat :=
  [OP_CAT,OP_SUBSTR,OP_LEFT,OP_RIGHT,OP_INVERT,OP_AND,OP_OR,OP_XOR,OP_2MUL,OP_2DIV,OP_MUL,OP_DIV,OP_MOD,OP_LSHIFT,OP_RSHIFT]

end Tetra.CScript
