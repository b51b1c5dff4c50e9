/-
Registers and flags of the machine. Every register belongs to a class
that decides what it can hold.
-/

namespace StackAsm

/-- What a register can hold. -/
inductive RegisterClass where
  | int
  | float
  | str
  | exception
  | flags
  | index
deriving DecidableEq, Repr

inductive Register where
  | ra | rb | rc | rd
  | fa | fb
  | sa | sb
  | ex
  | fl
  | ix | iy
deriving DecidableEq, Repr

namespace Register

/-- All registers, in the order of their codes. -/
def all : List Register := [.ra, .rb, .rc, .rd, .fa, .fb, .sa, .sb, .ex, .fl, .ix, .iy]

def code : Register → UInt8
  | .ra => 0
  | .rb => 1
  | .rc => 2
  | .rd => 3
  | .fa => 4
  | .fb => 5
  | .sa => 6
  | .sb => 7
  | .ex => 8
  | .fl => 9
  | .ix => 10
  | .iy => 11

def name : Register → String
  | .ra => "ra"
  | .rb => "rb"
  | .rc => "rc"
  | .rd => "rd"
  | .fa => "fa"
  | .fb => "fb"
  | .sa => "sa"
  | .sb => "sb"
  | .ex => "ex"
  | .fl => "fl"
  | .ix => "ix"
  | .iy => "iy"

def holds : Register → RegisterClass
  | .ra | .rb | .rc | .rd => .int
  | .fa | .fb => .float
  | .sa | .sb => .str
  | .ex => .exception
  | .fl => .flags
  | .ix | .iy => .index

def ofName? (name : String) : Option Register := all.find? (·.name == name)

def ofCode? (code : UInt8) : Option Register := all[code.toNat]?

theorem ofCode?_code (r : Register) : ofCode? r.code = some r := by
  cases r <;> rfl

def isIndex (r : Register) : Bool := r.holds == .index

/-- Whether the register holds numbers to count with. -/
def isNumeric (r : Register) : Bool :=
  r.holds == .int || r.holds == .index || r.holds == .float

end Register

inductive Flag where
  | zero
  | carry
  | overflow
  | sign
  | equal
  | less
  | greater
deriving DecidableEq, Repr

namespace Flag

/-- All flags, in the order of their codes. -/
def all : List Flag := [.zero, .carry, .overflow, .sign, .equal, .less, .greater]

def code : Flag → UInt8
  | .zero => 0
  | .carry => 1
  | .overflow => 2
  | .sign => 3
  | .equal => 4
  | .less => 5
  | .greater => 6

def name : Flag → String
  | .zero => "zf"
  | .carry => "cf"
  | .overflow => "of"
  | .sign => "sf"
  | .equal => "eq"
  | .less => "lt"
  | .greater => "gt"

def ofName? (name : String) : Option Flag := all.find? (·.name == name)

def ofCode? (code : UInt8) : Option Flag := all[code.toNat]?

theorem ofCode?_code (f : Flag) : ofCode? f.code = some f := by
  cases f <;> rfl

end Flag

end StackAsm
