/-
# `Base64` of `base64.hpp`

`Encode` takes three bytes at a time apart into four letters and then sees to the one or
two that are left; `Decode` puts four letters at a time together.  Both write into a
string whose length they have worked out before, and both count in `int`s, which may not
pass 2 ^ 31.

What `Decode` reads and writes, it reads and writes without a look at where it ends.  So
the model keeps a list of these accesses beside the result.  A write behind the end of
the result is in the list, and has no effect otherwise; `outside` is what a read outside
the table finds.
-/

import BreUtils.Cpp.Text
import BreUtils.Lib.Cutting
import BreUtils.Lib.Rfc4648

namespace BreUtils
namespace Base64

open Lib Cpp

/-- A call that does not return a string. -/
inductive Fault where
  /-- An access outside a string or a table, where the model does not go on. -/
  | outside
  /-- An `int` that passes its range. -/
  | overflow
  /-- `std::length_error`. -/
  | lengthError
  deriving DecidableEq, Repr

/-- A `char`, promoted to `int`. -/
def int (c : UInt8) : Int32 := c.toInt8.toInt32

/-! ### `Encode` -/

/-- `base64_table`. -/
def base64Table : Bytes :=
  ascii "ABCDEFGHIJKLMNOPQRSTUVWXYZabcdefghijklmnopqrstuvwxyz0123456789+/"

/-- `base64Table[k]`. -/
def base64Char (k : Int32) : Except Fault UInt8 :=
  if 0 ≤ k.toInt then
    match base64Table[k.toInt.toNat]? with
    | some c => .ok c
    | none => .error .outside
  else .error .outside

/-- `str[j]`. -/
def charOf (str : Bytes) (j : ℕ) : Except Fault UInt8 :=
  match str[j]? with
  | some c => .ok c
  | none => .error .outside

/-- `res[i] = c`. -/
def put (res : Bytes) (i : ℕ) (c : UInt8) : Except Fault Bytes :=
  if i < res.length then .ok (res.set i c) else .error .outside

/-- The loop, from `i` and `j` on.  `i + 4` is the largest of the sums of `int`s. -/
def encodeLoop (str : Bytes) (i j : ℕ) (res : Bytes) : Except Fault (ℕ × ℕ × Bytes) :=
  if j + 2 < str.length then do
    let a ← charOf str j
    let b ← charOf str (j + 1)
    let c ← charOf str (j + 2)
    let res ← put res i (← base64Char ((int a >>> 2) &&& 0x3F))
    let res ← put res (i + 1)
      (← base64Char (((int a &&& 0x3) <<< 4) ||| ((int b >>> 4) &&& 0xF)))
    let res ← put res (i + 2)
      (← base64Char (((int b &&& 0xF) <<< 2) ||| ((int c >>> 6) &&& 0x3)))
    let res ← put res (i + 3) (← base64Char (int c &&& 0x3F))
    if i + 4 < 2 ^ 31 then encodeLoop str (i + 4) (j + 3) res else .error .overflow
  else .ok (i, j, res)
termination_by str.length - j

/-- The bytes that the loop leaves. -/
def encodeRest (str : Bytes) (i j : ℕ) (res : Bytes) : Except Fault Bytes :=
  if j < str.length then do
    let a ← charOf str j
    let res ← put res i (← base64Char ((int a >>> 2) &&& 0x3F))
    if j + 1 < str.length then
      let b ← charOf str (j + 1)
      let res ← put res (i + 1)
        (← base64Char (((int a &&& 0x3) <<< 4) ||| ((int b >>> 4) &&& 0xF)))
      put res (i + 2) (← base64Char ((int b &&& 0xF) <<< 2))
    else put res (i + 1) (← base64Char ((int a &&& 0x3) <<< 4))
  else .ok res

/-- `Encode`, of a string shorter than `2 ^ 62`, the result of which a string can hold. -/
def encode (str : Bytes) : Except Fault Bytes := do
  let strLen := str.length
  let len := (strLen + 2) / 3 * 4
  let (i, j, res) ← encodeLoop str 0 0 (List.replicate len (ch '='))
  encodeRest str i j res

/-! ### `Decode` -/

/-- The table of `Decode`, which ends behind `z`. -/
def table : List UInt8 :=
  [0, 0, 0, 0, 0, 0, 0, 0, 0, 0, 0, 0,
    0, 0, 0, 0, 0, 0, 0, 0, 0, 0, 0, 0,
    0, 0, 0, 0, 0, 0, 0, 0, 0, 0, 0, 0,
    0, 0, 0, 0, 0, 0, 0, 62, 0, 0, 0,
    63, 52, 53, 54, 55, 56, 57, 58,
    59, 60, 61, 0, 0, 0, 0, 0, 0, 0, 0,
    1, 2, 3, 4, 5, 6, 7, 8, 9, 10, 11, 12,
    13, 14, 15, 16, 17, 18, 19, 20, 21,
    22, 23, 24, 25, 0, 0, 0, 0, 0, 0, 26,
    27, 28, 29, 30, 31, 32, 33, 34, 35,
    36, 37, 38, 39, 40, 41, 42, 43, 44,
    45, 46, 47, 48, 49, 50, 51]

/-- What `Decode` touches. -/
inductive Access where
  /-- `code[i]`, read. -/
  | code (i : ℕ)
  /-- `table[k]`, read. -/
  | table (k : ℤ)
  /-- `res[j]`, written. -/
  | res (j : ℕ)
  deriving DecidableEq, Repr

/-- The length of the result, the accesses, and how the call ends. -/
structure Decoding where
  strLen : ℤ
  accesses : List Access
  result : Except Fault Bytes

/-- `code[i]`.  The string ends with a `\0` that belongs to it. -/
def codeChar (code : Bytes) (i : ℕ) : UInt8 := code.getD i 0

/-- The index into the table for `code[i]`. -/
def index (code : Bytes) (i : ℕ) : ℤ := (int (codeChar code i)).toInt

variable (outside : ℤ → UInt8)

/-- `(unsigned char) table[code[i]]`. -/
def sextet (code : Bytes) (i : ℕ) : UInt8 :=
  let k := index code i
  if 0 ≤ k then
    match table[k.toNat]? with
    | some v => v
    | none => outside k
  else outside k

/-- `res[j] = (table[code[i]] << 2) | (table[code[i + 1]] >> 4)`, and the like: the `int` on the
right goes into a `char`. -/
def join (x : UInt8) (left : ℕ) (y : UInt8) (right : ℕ) : UInt8 :=
  UInt8.ofNat ((x.toNat <<< left) ||| (y.toNat >>> right))

/-- What the loop's body writes. -/
def decodeGroup (code : Bytes) (i j : ℕ) (res : Bytes) : Bytes :=
  let res := res.set j (join (sextet outside code i) 2 (sextet outside code (i + 1)) 4)
  let res := res.set (j + 1) (join (sextet outside code (i + 1)) 4 (sextet outside code (i + 2)) 2)
  res.set (j + 2) (join (sextet outside code (i + 2)) 6 (sextet outside code (i + 3)) 0)

/-- What the loop's body touches. -/
def groupAccesses (code : Bytes) (i j : ℕ) : List Access :=
  [.code i, .table (index code i), .code (i + 1), .table (index code (i + 1)), .res j,
    .code (i + 1), .table (index code (i + 1)), .code (i + 2), .table (index code (i + 2)),
    .res (j + 1),
    .code (i + 2), .table (index code (i + 2)), .code (i + 3), .table (index code (i + 3)),
    .res (j + 2)]

/-- The loop, from `i` and `j` on: its accesses and how it ends. -/
def decodeLoop (code : Bytes) (i j : ℕ) (res : Bytes) : List Access × Except Fault Bytes :=
  if (i : ℤ) < (code.length : ℤ) - 2 then
    let res := decodeGroup outside code i j res
    if i + 4 < 2 ^ 31 then
      let rest := decodeLoop code (i + 4) (j + 3) res
      (groupAccesses code i j ++ rest.1, rest.2)
    else (groupAccesses code i j, .error .overflow)
  else ([], .ok res)
termination_by code.length - i

/-- The length of the result. -/
def decodedLength (code : Bytes) : ℤ :=
  let len : ℤ := code.length
  if position (ascii "==") code ≠ none then len / 4 * 3 - 2
  else if position (ascii "=") code ≠ none then len / 4 * 3 - 1
  else len / 4 * 3

/-- `Decode`.  A negative length is a huge one to the constructor of the string. -/
def decode (code : Bytes) : Decoding :=
  let strLen := decodedLength code
  if strLen < 0 then ⟨strLen, [], .error .lengthError⟩
  else
    let loop := decodeLoop outside code 0 0 (List.replicate strLen.toNat 0)
    ⟨strLen, loop.1, loop.2⟩

end Base64
end BreUtils
