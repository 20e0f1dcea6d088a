import Mathlib.Data.List.Basic
import RedisServer.Lib.Decimal

namespace RedisServer

abbrev Bytes := List UInt8

def str (s : String) : Bytes := s.toList.map (fun c => UInt8.ofNat c.toNat)

def cr : UInt8 := 13
def lf : UInt8 := 10
def crlf : Bytes := [cr, lf]

-- <ctype.h> in the C locale, on unsigned char
def isspace (b : UInt8) : Bool := b == 32 || (9 ≤ b && b ≤ 13)
def tolower (b : UInt8) : UInt8 := if 65 ≤ b ∧ b ≤ 90 then b + 32 else b

structure Strtoll where
  value : Int64
  endptr : Nat
  erange : Bool
  deriving DecidableEq, Repr

def signOf : Bytes → Bool × Nat
  | 45 :: _ => (true, 1)
  | 43 :: _ => (false, 1)
  | _ => (false, 0)

-- strtoll with base 10: skip white space, one optional sign, the longest run of digits; without
-- a digit endptr stays at the start, out of range saturates and sets ERANGE
def strtoll (s : Bytes) : Strtoll :=
  let ws := (s.takeWhile isspace).length
  let sign := signOf (s.drop ws)
  let digits := (s.drop (ws + sign.2)).takeWhile Decimal.isDigit
  let v : Int := if sign.1 then -(Decimal.value digits : Int) else Decimal.value digits
  if digits = [] then ⟨0, 0, false⟩
  else if Int64.maxValue.toInt < v then ⟨Int64.maxValue, ws + sign.2 + digits.length, true⟩
  else if v < Int64.minValue.toInt then ⟨Int64.minValue, ws + sign.2 + digits.length, true⟩
  else ⟨Int64.ofInt v, ws + sign.2 + digits.length, false⟩

-- the body that store.c and cmd.c each carry as parse_strict_ll; buf[len] = 0 ends the copy
def strictLl (s : Bytes) : Option Int64 :=
  if s.length = 0 ∨ 20 < s.length then none
  else if isspace (s.getD 0 0) then none
  else
    let r := strtoll (s ++ [0])
    if r.erange then none
    else if r.endptr ≠ s.length then none
    else some r.value

example : strictLl (str "-42") = some (-42) := by decide
example : strictLl (str "9223372036854775808") = none := by decide
example : strictLl (str "12x") = none := by decide

theorem drop_add_of_drop {data a rest : Bytes} {p n : Nat} (h : data.drop p = a ++ rest)
    (hn : a.length = n) : data.drop (p + n) = rest := by
  rw [← List.drop_drop, h, List.drop_left' hn]

def formatLld (v : Int64) : Bytes := Decimal.ofInt v.toInt
def formatZu (n : Nat) : Bytes := Decimal.ofNat n

end RedisServer
