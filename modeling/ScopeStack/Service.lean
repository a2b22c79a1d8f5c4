/-!
# Services of the machine

The machine provides seven functions. A program calls them like its own
functions; they live at negative addresses, where there is no memory.
-/

namespace ScopeStack

/-- A function that the machine provides. -/
inductive Service where
  | exit
  | getint
  | putint
  | getstr
  | putstr
  | new
  | del
deriving DecidableEq, Repr

namespace Service

/-- All services. -/
def all : List Service := [.exit, .getint, .putint, .getstr, .putstr, .new, .del]

/-- The name under which a program calls a service. -/
def name : Service → String
  | .exit => "exit"
  | .getint => "getint"
  | .putint => "putint"
  | .getstr => "getstr"
  | .putstr => "putstr"
  | .new => "new"
  | .del => "del"

/-- The address at which a service is called. -/
def address : Service → Int
  | .exit => -1
  | .getint => -2
  | .putint => -3
  | .getstr => -4
  | .putstr => -5
  | .new => -6
  | .del => -7

/-- The service of a name. -/
def ofName? (name : String) : Option Service := all.find? fun service => service.name == name

/-- The service at an address. -/
def ofAddress? (address : Int) : Option Service :=
  all.find? fun service => service.address == address

end Service

end ScopeStack
