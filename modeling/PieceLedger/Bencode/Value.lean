import PieceLedger.Decimal

/-!
Bencoded values together with the way they are written.

An integer has one written form.  A byte string is written behind its length,
which may carry superfluous zeros, so `Text` counts them; a dictionary keeps
its entries in the order in which they are written.  `encode` therefore gives
back every byte of a value's written form.
-/

namespace PieceLedger.Bencode

structure Text where
  zeros : Nat
  bytes : Bytes
  deriving DecidableEq, Repr

inductive Value where
  | text (content : Text)
  | integer (number : Int64)
  | list (items : List Value)
  | dict (entries : List (Text × Value))
  deriving Repr

abbrev Dict := List (Text × Value)

inductive Kind where
  | text
  | integer
  | list
  | dict
  deriving DecidableEq, Repr

def Value.kind : Value → Kind
  | .text _ => .text
  | .integer _ => .integer
  | .list _ => .list
  | .dict _ => .dict

/-! ## Written form -/

def Text.encode (t : Text) : Bytes :=
  List.replicate t.zeros 48 ++ (Decimal.write t.bytes.length ++ 58 :: t.bytes)

mutual

def Value.encode : Value → Bytes
  | .text t => t.encode
  | .integer n => 105 :: (Decimal.writeInt n.toInt ++ [101])
  | .list items => 108 :: (encodeItems items ++ [101])
  | .dict entries => 100 :: (encodeEntries entries ++ [101])

def encodeItems : List Value → Bytes
  | [] => []
  | v :: rest => v.encode ++ encodeItems rest

def encodeEntries : List (Text × Value) → Bytes
  | [] => []
  | (key, v) :: rest => key.encode ++ (v.encode ++ encodeEntries rest)

end

/-! ## Lookup -/

namespace Dict

def find? (d : Dict) (key : Bytes) : Option Value :=
  (List.find? (fun entry => entry.1.bytes = key) d).map (·.2)

def findKind? (d : Dict) (key : Bytes) (kind : Kind) : Option Value :=
  (d.find? key).filter fun v => v.kind = kind

def text? (d : Dict) (key : Bytes) : Option Bytes :=
  match d.find? key with
  | some (.text t) => some t.bytes
  | _ => none

def integer? (d : Dict) (key : Bytes) : Option Int64 :=
  match d.find? key with
  | some (.integer n) => some n
  | _ => none

def list? (d : Dict) (key : Bytes) : Option (List Value) :=
  match d.find? key with
  | some (.list items) => some items
  | _ => none

def dict? (d : Dict) (key : Bytes) : Option Dict :=
  match d.find? key with
  | some (.dict entries) => some entries
  | _ => none

def descend? (d : Dict) (keys : List Bytes) : Option Dict :=
  keys.foldlM (fun inner key => Dict.dict? inner key) d

def sorted (d : Dict) : Dict :=
  d.mergeSort fun left right => decide (left.1.bytes ≤ right.1.bytes)

end Dict

end PieceLedger.Bencode
