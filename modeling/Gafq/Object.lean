import Gafq.Opcodes

/-! # Function prototypes

`Proto`, `LocVar` and the constants of `gobject.h`.  Arrays with their separate size
fields (`k`/`sizek`, `code`/`sizecode`, ...) are lists, whose length is the size field.
A `TString *` is an `Option`: `none` is the `NULL` pointer.  Strings are interned, so
comparing two of them by address is comparing their contents.
-/

namespace Gafq

/-- The contents of a string, without the trailing `\0`. -/
abbrev TString := List UInt8

/-- The values a constant table can hold; a number is its memory image. -/
inductive Constant where
  | nil
  | boolean (b : Bool)
  | number (image : List UInt8)
  | string (s : Option TString)
deriving DecidableEq, Repr

def Constant.isString : Constant → Bool
  | .string _ => true
  | _ => false

structure LocVar where
  varname : Option TString
  /-- first point where variable is active -/
  startpc : Int
  /-- first point where variable is dead -/
  endpc : Int
deriving DecidableEq, Repr

/-- A function prototype. -/
structure Proto where
  /-- constants used by the function -/
  k : List Constant
  code : List Instruction
  /-- functions defined inside the function -/
  p : List Proto
  /-- map from opcodes to source lines -/
  lineinfo : List Int
  locvars : List LocVar
  /-- upvalue names -/
  upvalues : List (Option TString)
  source : Option TString
  linedefined : Int
  lastlinedefined : Int
  /-- number of upvalues -/
  nups : UInt8
  numparams : UInt8
  isVararg : UInt8
  maxstacksize : UInt8
deriving Repr, Inhabited

/-! ## Masks for new-style vararg -/

def varargHasArg : Nat := 1
def varargIsVararg : Nat := 2
def varargNeedsArg : Nat := 4

/-- `pt->is_vararg & mask`, as the truth value the C conditions use. -/
def Proto.varargFlag (pt : Proto) (mask : Nat) : Bool := pt.isVararg.toNat &&& mask != 0

/-- The arithmetic value of `pt->is_vararg & VARARG_HASARG`. -/
def Proto.hasArg (pt : Proto) : Nat := pt.isVararg.toNat &&& varargHasArg

namespace Proto

def sizek (pt : Proto) : Nat := pt.k.length
def sizecode (pt : Proto) : Nat := pt.code.length
def sizep (pt : Proto) : Nat := pt.p.length
def sizelineinfo (pt : Proto) : Nat := pt.lineinfo.length
def sizelocvars (pt : Proto) : Nat := pt.locvars.length
def sizeupvalues (pt : Proto) : Nat := pt.upvalues.length

/-- `pt->code[pc]`; the checker never reads past the array without testing the bound first. -/
def instr (pt : Proto) (pc : Nat) : Instruction := pt.code.getD pc 0

/-- `pt->k[b]`. -/
def const (pt : Proto) (b : Nat) : Constant := pt.k.getD b .nil

/-- `pt->p[b]->nups`. -/
def nestedNups (pt : Proto) (b : Nat) : Nat := ((pt.p.getD b default).nups).toNat

end Proto

/-! ## Limits -/

/-- Maximum stack for a Gafq function. -/
def maxStack : Nat := 250

/-- Maximum depth of nested C calls and syntactical nested non-terminals. -/
def maxCCalls : Nat := 200

end Gafq
