import BStackRaii.Model.Read
/-!
# Discriminants of a generated enum

`derive/src/layout.rs`, with `parse_disc_expr`, `int_bounds` and `infer_disc_ty` of `derive/src/util.rs`, and
the descriptor that `derive/src/class.rs` makes of the values. The generated code matches the stored word as an
integer of the chosen type against the values; the interpreter has them as `i64`.
-/

namespace BStackRaii

/-- The names that `parse_attr` lets through; `aligned` is `u64`. -/
inductive DiscTy
  | u8
  | u16
  | u32
  | u64
  | i8
  | i16
  | i32
  | i64
deriving DecidableEq, Repr

namespace DiscTy

def name : DiscTy → String
  | u8 => "u8"
  | u16 => "u16"
  | u32 => "u32"
  | u64 => "u64"
  | i8 => "i8"
  | i16 => "i16"
  | i32 => "i32"
  | i64 => "i64"

/-- `size_of`. -/
def width : DiscTy → Nat
  | u8 => 1
  | u16 => 2
  | u32 => 4
  | u64 => 8
  | i8 => 1
  | i16 => 2
  | i32 => 4
  | i64 => 8

def signed : DiscTy → Bool
  | u8 => false
  | u16 => false
  | u32 => false
  | u64 => false
  | i8 => true
  | i16 => true
  | i32 => true
  | i64 => true

/-- The integer with the bits of `raw`. -/
def ofBits (ty : DiscTy) (raw : Nat) : Int :=
  if ty.signed ∧ 2 ^ (8 * ty.width - 1) ≤ raw then (raw : Int) - 2 ^ (8 * ty.width) else raw

end DiscTy

def intBounds : DiscTy → Int × Int
  | .u8 => (0, 2 ^ 8 - 1)
  | .u16 => (0, 2 ^ 16 - 1)
  | .u32 => (0, 2 ^ 32 - 1)
  | .u64 => (0, 2 ^ 64 - 1)
  | .i8 => (-2 ^ 7, 2 ^ 7 - 1)
  | .i16 => (-2 ^ 15, 2 ^ 15 - 1)
  | .i32 => (-2 ^ 31, 2 ^ 31 - 1)
  | .i64 => (-2 ^ 63, 2 ^ 63 - 1)

def inBounds (ty : DiscTy) (v : Int) : Prop := (intBounds ty).1 ≤ v ∧ v ≤ (intBounds ty).2

instance (ty : DiscTy) (v : Int) : Decidable (inBounds ty v) := inferInstanceAs (Decidable (_ ∧ _))

/-- The smallest type that holds both values. It is signed if and only if `min` is negative. -/
def inferDiscTy (min max : Int) : DiscTy :=
  let candidates := if min < 0 then [DiscTy.i8, .i16, .i32, .i64] else [DiscTy.u8, .u16, .u32, .u64]
  (candidates.find? fun ty => min ≥ (intBounds ty).1 ∧ max ≤ (intBounds ty).2).getD (if min < 0 then .i64 else .u64)

/-- The expression of an explicit discriminant. -/
inductive DiscExpr
  | lit (n : Nat)
  | neg (e : DiscExpr)
  | other
deriving DecidableEq, Repr

def I128_MAX : Int := 2 ^ 127 - 1

def expectedLiteral : String := "[BSTACK0204] expected an integer literal discriminant"

/-- `base10_parse::<i128>`. -/
def base10Parse (n : Nat) : Except String Int :=
  if (n : Int) ≤ I128_MAX then .ok n else .error "number too large to fit in target type"

def parseDiscExpr : DiscExpr → Except String Int
  | .lit n => base10Parse n
  | .neg (.lit n) => (base10Parse n).map fun d => -d
  | .neg _ => .error expectedLiteral
  | .other => .error expectedLiteral

/-- A variant: its name, its explicit discriminant, and the fields of its payload. -/
structure EnumVariant where
  name : String
  discriminant : Option DiscExpr
  fields : List RttiField

/-- The type, the typed literals of the match, and the values, in the order of the declaration. -/
structure Discriminants where
  ty : DiscTy
  pats : List (Int × DiscTy)
  values : List Int
deriving DecidableEq, Repr

def assignedTwice (d : Int) : String :=
  "[BSTACK0201] discriminant value `" ++ toString d ++ "` assigned more than once"

def discOverflow : String := "[BSTACK0202] #[bstack_enum] discriminant overflow"

def outOfRepr (r : DiscTy) (dmin dmax : Int) : String :=
  "[BSTACK0203] a discriminant value is out of range for `repr(" ++ r.name ++ ")` (values span " ++
    toString dmin ++ "..=" ++ toString dmax ++ ")"

/-- The discriminant of a variant: explicit, or `next`. -/
def discValue (next : Int) (v : EnumVariant) : Except String Int :=
  match v.discriminant with
  | some expr => parseDiscExpr expr
  | none => .ok next

/-- The loop over the variants, with the next implicit value and the values so far. -/
def discValues (next : Int) (out : List Int) : List EnumVariant → Except String (List Int)
  | [] => .ok out
  | v :: variants => do
      let d ← discValue next v
      if d ∈ out then .error (assignedTwice d)
      else if d + 1 ≤ I128_MAX then discValues (d + 1) (out ++ [d]) variants
      else .error discOverflow

def discTy (repr : Option DiscTy) (dmin dmax : Int) : Except String DiscTy :=
  match repr with
  | some r =>
      if dmin < (intBounds r).1 ∨ dmax > (intBounds r).2 then .error (outOfRepr r dmin dmax) else .ok r
  | none => .ok (inferDiscTy dmin dmax)

def discriminants (variants : List EnumVariant) (repr : Option DiscTy) : Except String Discriminants := do
  let values ← discValues 0 [] variants
  let ty ← discTy repr (values.min?.getD 0) (values.max?.getD 0)
  pure ⟨ty, values.map fun v => (v, ty), values⟩

/-- The generated `match`: the place of the first literal that equals the stored integer. -/
def Discriminants.select (d : Discriminants) (raw : Nat) : Option Nat :=
  d.pats.findIdx? fun pat => pat.1 = d.ty.ofBits raw

/-- `enum_variant`: the value is cast to `i64`. -/
def enumVariant (v : EnumVariant) (value : Int) : RttiVariant := ⟨v.name, Int64.ofInt value, v.fields⟩

/-- The descriptor of the enum. -/
def Discriminants.schema (d : Discriminants) (variants : List EnumVariant) (discOff payloadOff : UInt16) :
    RttiEnum where
  discWidth := UInt8.ofNat d.ty.width
  discOff := discOff
  payloadOff := payloadOff
  variants := List.zipWith enumVariant variants d.values

end BStackRaii
