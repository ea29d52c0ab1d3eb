import Secd.Opcode
import Secd.Primitive
import Secd.Text.Quoted

/-!
# Faults of the machine

A fault says exactly what went wrong. Its kind is the coarser classification by which programs that
use the machine tell faults apart.
-/

namespace Secd

/-- What a value should have been. -/
inductive Expectation where
  | address | argumentList | closure | int | pair
deriving DecidableEq, Repr

/-- The words for it. -/
def Expectation.text : Expectation → String
  | .address => "address"
  | .argumentList => "argument list"
  | .closure => "closure"
  | .int => "int"
  | .pair => "pair"

/-- The kinds of faults. -/
inductive FaultKind where
  | typeError (expected : Expectation)
  | zeroDivision
  | overflow
  | arityError (expected got : Nat)
  | stackUnderflow
  | environmentUnderflow
  | dumpUnderflow
  | dumpMismatch
  | dumpOverflow
  | pendingFrame
  | unknownInstruction (text : String)
  | missingOperand (op : Opcode)
  | missingStop
  | stepLimit (limit : Nat)
  | hostError (message : String)
deriving DecidableEq, Repr

namespace FaultKind

/-- The general message for a kind. -/
def text : FaultKind → String
  | .typeError expected => "type error: expected " ++ expected.text
  | .zeroDivision => "division by zero"
  | .overflow => "integer overflow"
  | .arityError expected got =>
    "arity error: expected " ++ toString expected ++ ", got " ++ toString got
  | .stackUnderflow => "stack underflow"
  | .environmentUnderflow => "environment underflow"
  | .dumpUnderflow => "dump underflow"
  | .dumpMismatch => "dump entry does not match instruction"
  | .dumpOverflow => "dump overflow"
  | .pendingFrame => "letrec frame is still pending"
  | .unknownInstruction text => "unknown instruction " ++ text
  | .missingOperand op => "missing operand for " ++ op.mnemonic
  | .missingStop => "control exhausted without STOP"
  | .stepLimit limit => "step limit " ++ toString limit ++ " reached"
  | .hostError message => "host error: " ++ message

/-- The name of the kind with what it carries. -/
def describe : FaultKind → String
  | .typeError expected => "TypeError(" ++ Text.quote expected.text ++ ")"
  | .zeroDivision => "ZeroDivision"
  | .overflow => "Overflow"
  | .arityError expected got =>
    "ArityError \x7b expected: " ++ toString expected ++ ", got: " ++ toString got ++ " \x7d"
  | .stackUnderflow => "StackUnderflow"
  | .environmentUnderflow => "EnvironmentUnderflow"
  | .dumpUnderflow => "DumpUnderflow"
  | .dumpMismatch => "DumpMismatch"
  | .dumpOverflow => "DumpOverflow"
  | .pendingFrame => "PendingFrame"
  | .unknownInstruction text => "UnknownInstruction(" ++ Text.quote text ++ ")"
  | .missingOperand op => "MissingOperand(" ++ Text.quote op.mnemonic ++ ")"
  | .missingStop => "MissingStop"
  | .stepLimit limit => "StepLimit(" ++ toString limit ++ ")"
  | .hostError message => "HostError(" ++ Text.quote message ++ ")"

end FaultKind

/-- What went wrong in a step. -/
inductive Fault where
  /-- The operand of `LD` is no address. -/
  | address (error : ValueError)
  | noFrame (frame : Nat)
  | noSlot (frame slot : Nat)
  /-- A variable of a letrec frame that has no values yet. -/
  | pendingFrame
  /-- `RAP` without the pending frame of its `DUM` at the head of the environment. -/
  | unmatchedRap
  /-- The arguments of a host callable are no list. -/
  | argumentList (error : ValueError)
  | arity (name : String) (expected got : Nat)
  | host (message : String)
  | notAFunction (found : Kind)
  /-- `RTN` inside the branch of a conditional. -/
  | returnFromBranch
  /-- `JOIN` outside all branches of the running function. -/
  | joinFromCall
  | dumpUnderflow
  | dumpOverflow
  | stackUnderflow
  | notAPair (op : Unary) (error : ValueError)
  | notAnInt (error : ValueError)
  | zeroDivision
  | overflow (op : Arithmetic) (a b : Int64)
  | unknownInstruction (text : String)
  | missingOperand (op : Opcode)
  | missingStop
  | stepLimit (limit : Nat)
deriving DecidableEq, Repr

namespace Fault

/-- The kind of a fault. -/
def kind : Fault → FaultKind
  | .address _ => .typeError .address
  | .noFrame _ => .environmentUnderflow
  | .noSlot _ _ => .environmentUnderflow
  | .pendingFrame => .pendingFrame
  | .unmatchedRap => .pendingFrame
  | .argumentList _ => .typeError .argumentList
  | .arity _ expected got => .arityError expected got
  | .host message => .hostError message
  | .notAFunction _ => .typeError .closure
  | .returnFromBranch => .dumpMismatch
  | .joinFromCall => .dumpMismatch
  | .dumpUnderflow => .dumpUnderflow
  | .dumpOverflow => .dumpOverflow
  | .stackUnderflow => .stackUnderflow
  | .notAPair _ _ => .typeError .pair
  | .notAnInt _ => .typeError .int
  | .zeroDivision => .zeroDivision
  | .overflow _ _ _ => .overflow
  | .unknownInstruction text => .unknownInstruction text
  | .missingOperand op => .missingOperand op
  | .missingStop => .missingStop
  | .stepLimit limit => .stepLimit limit

/-- The message for a fault; that of its kind where there is nothing to add. -/
def message (f : Fault) : String :=
  match f with
  | .address error => "LD operand: " ++ error.message
  | .noFrame frame => "no frame " ++ toString frame ++ " in environment"
  | .noSlot frame slot => "no slot " ++ toString slot ++ " in frame " ++ toString frame
  | .unmatchedRap => "RAP without a matching DUM frame"
  | .argumentList error => error.message
  | .arity name expected got => Primitive.arityMessage name expected got
  | .host message => message
  | .notAFunction found => "cannot apply " ++ found.text
  | .returnFromBranch => "RTN found a JOIN entry"
  | .joinFromCall => "JOIN found a call entry"
  | .notAPair op error => op.name ++ ": " ++ error.message
  | .notAnInt error => error.message
  | .overflow op a b =>
    "integer overflow in " ++ op.name ++ " " ++ Integer.text a ++ " " ++ Integer.text b
  | f => f.kind.text

end Fault

end Secd
