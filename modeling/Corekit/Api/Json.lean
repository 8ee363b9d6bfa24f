import Mathlib.Order.Basic

/-! The JSON values that configuration files hold, as far as the readers of
those files tell them apart. -/
namespace Corekit.Api

inductive Json where
  | object (members : List (String × Json))
  | string (text : String)
  | boolean (value : Bool)
  | unsigned (value : Nat)
  | other

namespace Json

def isObject : Json → Bool
  | .object _ => true
  | _ => false

def member? (name : String) : Json → Option Json
  | .object members => (members.find? fun entry => entry.1 = name).map Prod.snd
  | _ => none

end Json

end Corekit.Api
