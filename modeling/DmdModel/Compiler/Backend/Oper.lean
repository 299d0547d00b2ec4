import Mathlib

namespace Compiler.Backend

-- The operators, by the number of their operands. The two leaves that carry data, `OPvar` and
-- `OPconst`, are constructors of `Elem`.
inductive LeafOp
  | unde | relconst | reg | string | nullptr | asm | halt | mark | dctor | frameptr | got | sizeof
  | strthis
  deriving DecidableEq

inductive UnaryOp
  | not | com | ind | addr | neg | uadd | abs | rndtol | rint | bool | strlen
  | b_8 | s16_32 | u16_32 | d_s32 | d_u32 | s32_d | u32_d | d_s16 | s16_d | l32_16
  | d_f | f_d | u8_16 | s8_16 | w16_8 | d_ld | ld_d | c_r | c_i
  | u32_64 | s32_64 | ll64_32 | msw | d_s64 | s64_d | d_u64 | u64_d | ld_u64
  | ll128_64 | s64_128 | u64_128
  | ucall | ucallns | strpar | strctor | u16_d | d_u16 | negass | toprec
  | ctor | dtor | setjmp | void | bsf | bsr | bswap | popcnt | ddtor | vector | vecfill
  | sqrt | sin | cos | inp
  | vp_fp | cvp_fp | np_fp | np_f16p | f16p_np | offset
  deriving DecidableEq

inductive BinaryOp
  | add | mul | and | min | cond | comma | div | mod | xor
  | or | oror | andand | shl | shr | ashr | streq | strcpy | strcat | strcmp
  | postinc | postdec | eq | addass | minass | mulass | divass
  | modass | shrass | ashrass | shlass | andass | xorass | orass
  | le | gt | lt | ge | eqeq | ne | param | call | callns | colon | colon2
  | bit | memcpy | memcmp | memset
  | unord | lg | leg | ule | ul | uge | ug | ue | ngt | nge
  | nlt | nle | ord | nlg | nleg | nule | nul | nuge | nug | nue
  | info | pair | rpair
  | bt | btc | btr | bts | ror | rol | btst
  | remquo | cmpxchg | outp | scale | yl2x | yl2xp1 | va_start | vecsto | prefetch
  deriving DecidableEq

open BinaryOp in
def Ertol : List BinaryOp :=
  [eq, streq, strcpy, memcpy, postinc, postdec, addass,
   minass, mulass, divass, modass, andass,
   orass, xorass, shlass, shrass, ashrass,
   call, callns, info, memset,
   vecsto, cmpxchg]

namespace BinaryOp

-- Operators that evaluate the right subtree first, then the left.
def OTrtol (op : BinaryOp) : Bool :=
  op ∈ Ertol

-- An op= operator.
def OTopeq : BinaryOp → Bool
  | addass | minass | mulass | divass | modass | shrass | shlass | andass | xorass | orass
  | ashrass => true
  | _ => false

-- The operators that store into their left operand in any case.
def stores (op : BinaryOp) : Bool :=
  op = eq || op = streq || op = postinc || op = postdec || op.OTopeq

end BinaryOp

end Compiler.Backend
