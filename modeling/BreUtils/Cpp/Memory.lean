/-
# Sizes and arrays

`std::size_t` on a platform where it has 64 bits, and what the sources do with the
bytes of an array: read a part of it, write into a part of it, and change its size.
`none` stands for an access that leaves the array, which C++ leaves undefined, and,
for `resize`, for `std::length_error`.
-/

import BreUtils.Cpp.Text

namespace BreUtils
namespace Cpp

/-- `a + b` of two `std::size_t`. -/
def addSize (a b : ℕ) : ℕ := (a + b) % 2 ^ 64

/-- `a - b` of two `std::size_t`. -/
def subSize (a b : ℕ) : ℕ := (a + (2 ^ 64 - b)) % 2 ^ 64

/-- A sum that fits. -/
theorem addSize_eq {a b : ℕ} (h : a + b < 2 ^ 64) : addSize a b = a + b := Nat.mod_eq_of_lt h

/-- A difference that is not negative. -/
theorem subSize_eq {a b : ℕ} (hba : b ≤ a) (ha : a < 2 ^ 64) : subSize a b = a - b := by
  unfold subSize
  omega

/-- `PTRDIFF_MAX`, the largest size of a `std::vector<char>` and of a `std::string`. -/
def maxSize : ℕ := 2 ^ 63 - 1

/-- The bytes from `pos` to `pos + len`. -/
def readAt (v : Bytes) (pos len : ℕ) : Option Bytes :=
  if pos + len ≤ v.length then some ((v.drop pos).take len) else none

/-- `std::copy` to `pos`. -/
def writeAt (v : Bytes) (pos : ℕ) (s : Bytes) : Option Bytes :=
  if pos + s.length ≤ v.length then some (v.take pos ++ s ++ v.drop (pos + s.length)) else none

/-- `v.resize(n)`. -/
def resize (v : Bytes) (n : ℕ) : Option Bytes :=
  if n ≤ maxSize then some (v.take n ++ List.replicate (n - v.length) 0) else none

/-- A read inside the vector. -/
theorem readAt_eq {v : Bytes} {pos len : ℕ} (h : pos + len ≤ v.length) :
    readAt v pos len = some ((v.drop pos).take len) := if_pos h

/-- A write inside the vector. -/
theorem writeAt_eq {v s : Bytes} {pos : ℕ} (h : pos + s.length ≤ v.length) :
    writeAt v pos s = some (v.take pos ++ s ++ v.drop (pos + s.length)) := if_pos h

/-- A write leaves the size as it is. -/
theorem length_writeAt {v v' s : Bytes} {pos : ℕ} (h : writeAt v pos s = some v') :
    v'.length = v.length := by
  unfold writeAt at h
  split_ifs at h with hfits
  obtain rfl := Option.some.inj h
  simp only [List.length_append, List.length_take, List.length_drop]
  omega

/-- What is in front of `pos` stays, and what is written follows it. -/
theorem take_writeAt {v v' s : Bytes} {pos : ℕ} (h : writeAt v pos s = some v') :
    v'.take (pos + s.length) = v.take pos ++ s := by
  unfold writeAt at h
  split_ifs at h with hfits
  obtain rfl := Option.some.inj h
  have hlength : (v.take pos ++ s).length = pos + s.length := by
    rw [List.length_append, List.length_take]
    omega
  exact List.take_left' hlength

/-- The size that was asked for. -/
theorem length_resize {v v' : Bytes} {n : ℕ} (h : resize v n = some v') : v'.length = n := by
  unfold resize at h
  split_ifs at h
  obtain rfl := Option.some.inj h
  simp only [List.length_append, List.length_take, List.length_replicate]
  omega

/-- No size above `max_size` can be had. -/
theorem resize_le {v v' : Bytes} {n : ℕ} (h : resize v n = some v') : n ≤ maxSize := by
  unfold resize at h
  split_ifs at h with hn
  exact hn

/-- Growing keeps what was there. -/
theorem take_resize {v v' : Bytes} {n : ℕ} (h : resize v n = some v') {m : ℕ}
    (hm : m ≤ v.length) (hn : m ≤ n) : v'.take m = v.take m := by
  unfold resize at h
  split_ifs at h
  obtain rfl := Option.some.inj h
  rw [List.take_append_of_le_length (by rw [List.length_take]; omega), List.take_take,
    min_eq_left hn]

end Cpp
end BreUtils
