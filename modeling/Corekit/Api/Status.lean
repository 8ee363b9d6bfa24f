import Mathlib.Order.Basic

/-! Status values shared by every component. The hexadecimal error code is a
function of the module and the code and is not carried separately. -/
namespace Corekit.Api

inductive StatusCode where
  | kOk
  | kInvalidArgument
  | kNotInitialized
  | kAlreadyInitialized
  | kNotFound
  | kWouldBlock
  | kBufferTooSmall
  | kIoError
  | kInternalError
  | kUnsupported
  deriving DecidableEq, Repr

inductive ErrorModule where
  | kCore
  | kMemory
  | kTask
  | kConcurrent
  deriving DecidableEq, Repr

structure Status where
  code : StatusCode
  message : String
  errorModule : ErrorModule := .kCore
  deriving DecidableEq, Repr

def Status.okStatus : Status := ⟨.kOk, "", .kCore⟩

def Status.ok (status : Status) : Bool := status.code = .kOk

@[simp] theorem Status.ok_okStatus : Status.okStatus.ok = true := rfl

/-- `Result<T>`: a value, or the status that explains its absence. -/
abbrev Result (α : Type) := Except Status α

end Corekit.Api
