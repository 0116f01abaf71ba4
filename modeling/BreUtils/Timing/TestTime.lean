/-
# The time between two points, `TestTime.hpp`

`TestTime::Hit` is called at points of a program that are passed again and again, by any
thread.  It keeps the clock readings of every point, and the points in the order of their
first hits, and reports the time that has passed since the point before.  Points are
passed at different paces, so the `k`-th reading of a point belongs to the `k`-th reading
of the point before, as the comment in the source says.  A call holds the mutex from
before it reads the clock to its end, so calls come one after the other.

The code takes the reading of its own point at the right count, but that of the other
point at the count of the other point, which is its last one.  So what it reports is
the time since the `k`-th reading of the point before exactly if the last reading of that
point shows the same time as the `k`-th, as it does when there is no later one
(`hit_pairs_iff`).  A call is defined as long as its numbers fit an `int` (`exists_hit`).

Left out are the text around the difference, its unit, and the file it is written to.
-/

import BreUtils.Lib.AssocMap
import BreUtils.Lib.Cursor
import BreUtils.Lib.Transition
import Mathlib.Algebra.Group.Int.Defs
import Mathlib.Algebra.Group.Nat.Defs
import Mathlib.Data.List.Nodup

namespace BreUtils
namespace Timing

open Lib
open Lib.Transition (run run_concat_eq_some)

/-- `std::source_location`. -/
structure SourceLocation where
  fileName : List UInt8
  functionName : List UInt8
  line : UInt32
  column : UInt32

/-- A call of `Hit`, and what the clock reads in it, in nanoseconds. -/
structure Hit where
  msg : List UInt8
  loc : SourceLocation
  now : ℤ

/-- `key`. -/
def Hit.key (h : Hit) : List UInt8 :=
  h.loc.fileName ++ h.loc.functionName ++ ascii (toString h.loc.line.toNat) ++
    ascii (toString h.loc.column.toNat) ++ h.msg

/-- `HitInfo`. -/
structure HitInfo where
  msg : List UInt8
  timeVec : List ℤ
  count : ℕ

/-- What `Hit` reports: `from` where, `to` where, `in Count`, and the time spent. -/
structure Report where
  source : List UInt8
  target : List UInt8
  count : ℕ
  timeDiff : ℤ

/-- `TestTime`, its part for `Hit`. -/
structure TestTime where
  hitCount : UInt64
  hitMap : List (List UInt8 × HitInfo)
  hitList : List (List UInt8)

namespace TestTime

/-- The greatest `int`.  To count on from it is undefined. -/
def maxInt : ℕ := 2 ^ 31 - 1

/-- The constructor. -/
def init : TestTime := ⟨0, [], []⟩

/-- The first part of `Hit`: the reading is added to those of its key. -/
def record (s : TestTime) (h : Hit) : Option TestTime :=
  match s.hitMap.lookup h.key with
  | none =>
      some ⟨s.hitCount + 1, AssocMap.assign s.hitMap h.key ⟨h.msg, [h.now], 0⟩,
        s.hitList ++ [h.key]⟩
  | some info =>
      if info.count < maxInt then
        some ⟨s.hitCount + 1,
          AssocMap.assign s.hitMap h.key ⟨info.msg, info.timeVec ++ [h.now], info.count + 1⟩,
          s.hitList⟩
      else none

/-- `compare_index`: the place before that of the key, and for the first key the last place, as an
`int`.  A negative one is no place. -/
def compareIndex (hitList : List (List UInt8)) (key : List UInt8) : Option ℕ :=
  let curIndex := hitList.idxOf key
  if maxInt < curIndex then none
  else if curIndex = 0 then
    let last := ((hitList.length : ℤ) - 1).bmod (2 ^ 32)
    if last < 0 then none else some last.toNat
  else some (curIndex - 1)

/-- The second part of `Hit`.  Of the other key it takes the reading at the count of that key. -/
def report (s : TestTime) (key : List UInt8) : Option Report := do
  let curHitinfo ← s.hitMap.lookup key
  let index ← compareIndex s.hitList key
  let compareHitinfo ← s.hitMap.lookup (← s.hitList[index]?)
  let curTime ← curHitinfo.timeVec[curHitinfo.count]?
  let compareTime ← compareHitinfo.timeVec[compareHitinfo.count]?
  return ⟨compareHitinfo.msg, curHitinfo.msg, curHitinfo.count, curTime - compareTime⟩

/-- `Hit`.  With one key there is nothing to report.  `none`: the behaviour is undefined. -/
def hit (s : TestTime) (h : Hit) : Option (TestTime × Option Report) := do
  let s ← record s h
  if s.hitList.length < 2 then
    return (s, none)
  return (s, some (← report s h.key))

/-- `HitClear`. -/
def hitClear (s : TestTime) : TestTime := { s with hitMap := [], hitList := [] }

/-- A call by any thread. -/
inductive Action where
  | hit (h : Hit)
  | hitClear

/-- **One step.** -/
def step (s : TestTime) : Action → Option TestTime
  | .hit h => (hit s h).map Prod.fst
  | .hitClear => some (hitClear s)

/-! ### What has happened since the last `HitClear` -/

/-- The calls of `Hit` since the last `HitClear`. -/
def sinceClear (as : List Action) : List Hit :=
  as.foldl (fun log a => match a with | .hit h => log ++ [h] | .hitClear => []) []

/-- The clock readings at a key. -/
def readings (log : List Hit) (key : List UInt8) : List ℤ :=
  (log.filter fun h => h.key = key).map Hit.now

/-- The keys in the order of their first hits. -/
def hitOrder (log : List Hit) : List (List UInt8) := (log.map Hit.key).eraseDups

/-- What a log says of a key: the message of its first hit, its readings, and how many follow the
first one. -/
def infoOf (log : List Hit) (key : List UInt8) : Option HitInfo :=
  (log.find? fun h => h.key = key).map fun first =>
    ⟨first.msg, readings log key, (readings log key).length - 1⟩

/-- The state says of the keys what the log says. -/
structure Represents (log : List Hit) (s : TestTime) : Prop where
  lookup : ∀ key, s.hitMap.lookup key = infoOf log key
  hitList : s.hitList = hitOrder log

variable {log : List Hit} {s t : TestTime} {h : Hit} {key : List UInt8} {info : HitInfo}

theorem readings_concat (log : List Hit) (h : Hit) (key : List UInt8) :
    readings (log ++ [h]) key = readings log key ++ if h.key = key then [h.now] else [] := by
  unfold readings
  rw [List.filter_append, List.map_append]
  by_cases hkey : h.key = key
  · simp [hkey]
  · simp [hkey]

theorem hitOrder_concat (log : List Hit) (h : Hit) :
    hitOrder (log ++ [h]) =
      if h.key ∈ hitOrder log then hitOrder log else hitOrder log ++ [h.key] := by
  unfold hitOrder
  rw [List.map_append, List.map_singleton, List.eraseDups_append]
  generalize log.map Hit.key = keys
  split_ifs with hmem
  · rw [List.mem_eraseDups] at hmem
    simp [List.removeAll, hmem]
  · rw [List.mem_eraseDups] at hmem
    simp [List.removeAll, hmem, List.eraseDups_cons]

theorem nodup_hitOrder (log : List Hit) : (hitOrder log).Nodup := by
  induction log using List.reverseRecOn with
  | nil => exact List.nodup_nil
  | append_singleton log h ih =>
      rw [hitOrder_concat]
      split_ifs with hmem
      · exact ih
      · rw [← List.concat_eq_append]
        exact ih.concat hmem

/-- The keys of the list are those that the log knows. -/
theorem infoOf_eq_none_iff : infoOf log key = none ↔ key ∉ hitOrder log := by
  unfold infoOf hitOrder
  rw [Option.map_eq_none_iff, List.find?_eq_none, List.mem_eraseDups, List.mem_map]
  simp

theorem readings_eq_nil_iff : readings log key = [] ↔ infoOf log key = none := by
  unfold readings infoOf
  rw [List.map_eq_nil_iff, List.filter_eq_nil_iff, Option.map_eq_none_iff, List.find?_eq_none]

theorem readings_ne_nil (hinfo : infoOf log key = some info) : readings log key ≠ [] := by
  rw [Ne, readings_eq_nil_iff, hinfo]
  simp

theorem infoOf_eq_some (hinfo : infoOf log key = some info) :
    info.timeVec = readings log key ∧ info.count + 1 = (readings log key).length := by
  have hpos := List.length_pos_iff.2 (readings_ne_nil hinfo)
  obtain ⟨first, -, rfl⟩ := Option.map_eq_some_iff.1 hinfo
  exact ⟨rfl, Nat.sub_add_cancel hpos⟩

/-- The first hit of a key. -/
theorem infoOf_concat_new (hnew : infoOf log h.key = none) :
    infoOf (log ++ [h]) h.key = some ⟨h.msg, [h.now], 0⟩ := by
  have hreadings := readings_concat log h h.key
  rw [readings_eq_nil_iff.2 hnew, if_pos rfl, List.nil_append] at hreadings
  unfold infoOf at hnew ⊢
  rw [Option.map_eq_none_iff] at hnew
  simp [List.find?_append, hnew, hreadings]

/-- A later hit of a key. -/
theorem infoOf_concat_old (hold : infoOf log h.key = some info) :
    infoOf (log ++ [h]) h.key = some ⟨info.msg, info.timeVec ++ [h.now], info.count + 1⟩ := by
  have hcount := (infoOf_eq_some hold).2
  have hreadings := readings_concat log h h.key
  rw [if_pos rfl] at hreadings
  unfold infoOf at hold ⊢
  obtain ⟨first, hfirst, rfl⟩ := Option.map_eq_some_iff.1 hold
  simpa [List.find?_append, hfirst, hreadings] using hcount.symm

/-- A hit of another key. -/
theorem infoOf_concat_of_ne (hne : h.key ≠ key) : infoOf (log ++ [h]) key = infoOf log key := by
  have hreadings := readings_concat log h key
  rw [if_neg hne, List.append_nil] at hreadings
  unfold infoOf
  simp [List.find?_append, hne, hreadings]

/-! ### The state keeps what the log says -/

theorem represents_init : Represents [] init := ⟨fun _ => rfl, rfl⟩

/-- A write of what the log says of the key of its last hit. -/
theorem lookup_assign (hs : Represents log s) (hinfo : infoOf (log ++ [h]) h.key = some info)
    (key : List UInt8) :
    (AssocMap.assign s.hitMap h.key info).lookup key = infoOf (log ++ [h]) key := by
  rw [AssocMap.lookup_assign]
  split_ifs with hkey
  · rw [hkey, hinfo]
  · rw [infoOf_concat_of_ne (Ne.symm hkey), hs.lookup]

/-- **The first part of `Hit` adds the call to the log.** -/
theorem represents_record (hs : Represents log s) (ht : record s h = some t) :
    Represents (log ++ [h]) t := by
  unfold record at ht
  rw [hs.lookup] at ht
  cases hinfo : infoOf log h.key with
  | none =>
      rw [hinfo] at ht
      obtain rfl := Option.some.inj ht
      refine ⟨lookup_assign hs (infoOf_concat_new hinfo), ?_⟩
      rw [hitOrder_concat, if_neg (infoOf_eq_none_iff.1 hinfo), hs.hitList]
  | some info =>
      simp only [hinfo] at ht
      split_ifs at ht
      obtain rfl := Option.some.inj ht
      have hmem : h.key ∈ hitOrder log := by
        by_contra hmem
        exact absurd (hinfo.symm.trans (infoOf_eq_none_iff.2 hmem)) (by simp)
      refine ⟨lookup_assign hs (infoOf_concat_old hinfo), ?_⟩
      rw [hitOrder_concat, if_pos hmem, hs.hitList]

/-- The parts of a call. -/
theorem record_of_step (ht : step s (.hit h) = some t) : record s h = some t ∧
    (2 ≤ t.hitList.length → ∃ r, report t h.key = some r ∧ hit s h = some (t, some r)) := by
  obtain ⟨⟨u, r⟩, hr, rfl⟩ := Option.map_eq_some_iff.1 ht
  have hcall := hr
  unfold hit at hr
  obtain ⟨v, hv, hr⟩ := Option.bind_eq_some_iff.1 hr
  split_ifs at hr with hlength
  · obtain ⟨rfl, rfl⟩ := Prod.mk.inj (Option.some.inj hr)
    exact ⟨hv, fun htwo => absurd hlength (Nat.not_lt.2 htwo)⟩
  · obtain ⟨r', hr', hr⟩ := Option.bind_eq_some_iff.1 hr
    obtain ⟨rfl, rfl⟩ := Prod.mk.inj (Option.some.inj hr)
    exact ⟨hv, fun _ => ⟨r', hr', hcall⟩⟩

theorem sinceClear_concat_hit (as : List Action) (h : Hit) :
    sinceClear (as ++ [.hit h]) = sinceClear as ++ [h] := by
  simp [sinceClear]

/-- **A run keeps what the log since the last `HitClear` says.** -/
theorem represents_of_run {as : List Action} (hs : run step init as = some s) :
    Represents (sinceClear as) s := by
  induction as using List.reverseRecOn generalizing s with
  | nil =>
      obtain rfl := Option.some.inj hs
      exact represents_init
  | append_singleton as a ih =>
      obtain ⟨u, hu, hstep⟩ := run_concat_eq_some.1 hs
      cases a with
      | hit h =>
          rw [sinceClear_concat_hit]
          exact represents_record (ih hu) (record_of_step hstep).1
      | hitClear =>
          obtain rfl := Option.some.inj hstep
          rw [show sinceClear (as ++ [.hitClear]) = [] by simp [sinceClear]]
          exact ⟨fun _ => rfl, rfl⟩

/-! ### The report -/

/-- The place before a key that is not the first one. -/
theorem compareIndex_eq {hitList : List (List UInt8)} {i j : ℕ} (hnodup : hitList.Nodup)
    (hkey : hitList[i + 1]? = some key) (hj : compareIndex hitList key = some j) : j = i := by
  obtain ⟨hi, rfl⟩ := List.getElem?_eq_some_iff.1 hkey
  unfold compareIndex at hj
  rw [hnodup.idxOf_getElem] at hj
  simp only [if_neg (Nat.succ_ne_zero i)] at hj
  split_ifs at hj
  exact (Option.some.inj hj).symm

/-- The reading at the count of a key is its last one. -/
theorem getElem?_count (hinfo : infoOf log key = some info) :
    info.timeVec[info.count]? = (readings log key).getLast? := by
  obtain ⟨htimes, hcount⟩ := infoOf_eq_some hinfo
  rw [htimes, List.getLast?_eq_getElem?, ← hcount]
  rfl

/-- **What `Hit` reports** for a key that is not the first one: the time from the last reading of
the key before to its own last one. -/
theorem timeDiff_of_report {prev : List UInt8} {i : ℕ} {r : Report} (ht : Represents log t)
    (hprev : t.hitList[i]? = some prev) (hkey : t.hitList[i + 1]? = some key)
    (hr : report t key = some r) : ∃ x y, (readings log key).getLast? = some x ∧
      (readings log prev).getLast? = some y ∧ r.timeDiff = x - y := by
  have hnodup : t.hitList.Nodup := ht.hitList ▸ nodup_hitOrder log
  obtain ⟨cur, hcur, hr⟩ := Option.bind_eq_some_iff.1 hr
  obtain ⟨j, hj, hr⟩ := Option.bind_eq_some_iff.1 hr
  rw [compareIndex_eq hnodup hkey hj, hprev] at hr
  obtain ⟨_, ⟨⟩, hr⟩ := Option.bind_eq_some_iff.1 hr
  obtain ⟨cmp, hcmp, hr⟩ := Option.bind_eq_some_iff.1 hr
  obtain ⟨x, hx, hr⟩ := Option.bind_eq_some_iff.1 hr
  obtain ⟨y, hy, hr⟩ := Option.bind_eq_some_iff.1 hr
  rw [ht.lookup] at hcur hcmp
  rw [getElem?_count hcur] at hx
  rw [getElem?_count hcmp] at hy
  exact ⟨x, y, hx, hy, by rw [← Option.some.inj hr]⟩

/-! ### `Hit` reports unless an `int` overflows -/

/-- Every key of the list has a last reading. -/
theorem exists_time (ht : Represents log t) (hmem : key ∈ t.hitList) :
    ∃ info time, t.hitMap.lookup key = some info ∧ info.timeVec[info.count]? = some time := by
  rw [ht.hitList] at hmem
  obtain ⟨info, hinfo⟩ := Option.ne_none_iff_exists'.1 fun hnone =>
    infoOf_eq_none_iff.1 hnone hmem
  exact ⟨info, _, by rw [ht.lookup, hinfo],
    by rw [getElem?_count hinfo, List.getLast?_eq_some_getLast (readings_ne_nil hinfo)]⟩

theorem exists_compareIndex {hitList : List (List UInt8)} (hmem : key ∈ hitList)
    (hlength : hitList.length ≤ maxInt + 1) :
    ∃ i, compareIndex hitList key = some i ∧ i < hitList.length := by
  have hindex := List.idxOf_lt_length_of_mem hmem
  have hmax : maxInt = 2147483647 := rfl
  have hlast : ((hitList.length : ℤ) - 1).bmod (2 ^ 32) = hitList.length - 1 :=
    Int.bmod_eq_of_le (by omega) (by omega)
  unfold compareIndex
  rw [if_neg (by omega)]
  by_cases hzero : hitList.idxOf key = 0
  · rw [if_pos hzero]
    simp only [hlast]
    rw [if_neg (by omega)]
    exact ⟨_, rfl, by omega⟩
  · rw [if_neg hzero]
    exact ⟨_, rfl, by omega⟩

theorem exists_record (hs : Represents log s) (hcount : (readings log h.key).length ≤ maxInt) :
    ∃ t, record s h = some t ∧ t.hitList.length ≤ s.hitList.length + 1 := by
  unfold record
  rw [hs.lookup]
  cases hinfo : infoOf log h.key with
  | none => exact ⟨_, rfl, by simp⟩
  | some info =>
      have hnext := (infoOf_eq_some hinfo).2
      simp only [if_pos (show info.count < maxInt by omega)]
      exact ⟨_, rfl, by simp⟩

/-- **A call of `Hit` is defined while its numbers fit an `int`.** -/
theorem exists_hit (hs : Represents log s) (hcount : (readings log h.key).length ≤ maxInt)
    (hlength : s.hitList.length ≤ maxInt) : ∃ t r, hit s h = some (t, r) := by
  obtain ⟨t, ht, hle⟩ := exists_record hs hcount
  have hrepresents := represents_record hs ht
  unfold hit
  rw [ht, Option.bind_eq_bind, Option.bind_some]
  split_ifs with htwo
  · exact ⟨_, _, rfl⟩
  · have hmem : h.key ∈ t.hitList := by
      rw [hrepresents.hitList]
      unfold hitOrder
      rw [List.mem_eraseDups]
      simp
    obtain ⟨cur, x, hcur, hx⟩ := exists_time hrepresents hmem
    obtain ⟨i, hi, hlt⟩ := exists_compareIndex hmem (by omega)
    obtain ⟨cmp, y, hcmp, hy⟩ := exists_time hrepresents (List.getElem_mem hlt)
    have hreport : report t h.key = some ⟨cmp.msg, cur.msg, cur.count, x - y⟩ := by
      simp [report, hcur, hi, hcmp, hx, hy, List.getElem?_eq_getElem hlt]
    rw [hreport]
    exact ⟨_, _, rfl⟩

/-! ### Hits at one count -/

/-- **A call of `Hit` at a key behind another one reports the time from the reading of that one
with the same count, exactly if this is what its last reading shows.**  `x` and `y` are the `k`-th
readings of the two keys, counted from 0, and the call is the `k`-th hit of its key. -/
theorem hit_pairs_iff {as : List Action} {s t : TestTime} {h : Hit} {i k : ℕ} {prev : List UInt8}
    {x y : ℤ} (hs : run step init as = some s) (ht : step s (.hit h) = some t)
    (hprev : t.hitList[i]? = some prev) (hkey : t.hitList[i + 1]? = some h.key)
    (hk : (readings (sinceClear (as ++ [.hit h])) h.key).length = k + 1)
    (hx : (readings (sinceClear (as ++ [.hit h])) h.key)[k]? = some x)
    (hy : (readings (sinceClear (as ++ [.hit h])) prev)[k]? = some y) :
    ∃ r, hit s h = some (t, some r) ∧ (r.timeDiff = x - y ↔
      (readings (sinceClear (as ++ [.hit h])) prev).getLast? =
        (readings (sinceClear (as ++ [.hit h])) prev)[k]?) := by
  rw [sinceClear_concat_hit] at *
  obtain ⟨hrecord, hreport⟩ := record_of_step ht
  obtain ⟨hlength, -⟩ := List.getElem?_eq_some_iff.1 hkey
  obtain ⟨r, hr, hcall⟩ := hreport (by omega)
  refine ⟨r, hcall, ?_⟩
  have hrepresents := represents_record (represents_of_run hs) hrecord
  obtain ⟨x', y', hx', hy', hdiff⟩ := timeDiff_of_report hrepresents hprev hkey hr
  have hxx : x' = x := by
    rw [List.getLast?_eq_getElem?, hk] at hx'
    exact Option.some.inj (hx'.symm.trans hx)
  rw [hdiff, hxx, hy', hy, Option.some.injEq, Int.sub_right_inj]

/-- A hit at a point of a program. -/
def hitAt (msg : String) (now : ℤ) : Hit := ⟨ascii msg, ⟨[], [], 1, 1⟩, now⟩

/-- The start is passed three times, the last two at one reading of the clock, and the end for the
second time. -/
def hits : List Hit := [hitAt "Start" 2, hitAt "End" 3, hitAt "Start" 4, hitAt "Start" 4]

theorem hit_pairs_iff_sample : ∃ s t r, hit s (hitAt "End" 6) = some (t, some r) ∧
    (r.timeDiff = 6 - 4 ↔
      (readings (hits ++ [hitAt "End" 6]) (hitAt "Start" 2).key).getLast? =
        (readings (hits ++ [hitAt "End" 6]) (hitAt "Start" 2).key)[1]?) := by
  obtain ⟨r, hr⟩ := @hit_pairs_iff (hits.map .hit) _ _ (hitAt "End" 6) 0 1
    (hitAt "Start" 2).key 6 4 rfl rfl rfl rfl rfl rfl rfl
  exact ⟨_, _, r, hr⟩

/-- The start is passed twice before the end. -/
theorem not_hit_pairs :
    ¬ ∀ (as : List Action) (s t : TestTime) (h : Hit) (i k : ℕ) (prev : List UInt8) (x y : ℤ),
      run step init as = some s → step s (.hit h) = some t → t.hitList[i]? = some prev →
      t.hitList[i + 1]? = some h.key →
      (readings (sinceClear (as ++ [.hit h])) h.key).length = k + 1 →
      (readings (sinceClear (as ++ [.hit h])) h.key)[k]? = some x →
      (readings (sinceClear (as ++ [.hit h])) prev)[k]? = some y →
      ∃ r, hit s h = some (t, some r) ∧ r.timeDiff = x - y := by
  intro hall
  obtain ⟨r, hr, hdiff⟩ := hall [.hit (hitAt "Start" 2), .hit (hitAt "Start" 4)] _ _
    (hitAt "End" 5) 0 0 (hitAt "Start" 2).key 5 2 rfl rfl rfl rfl rfl rfl rfl
  obtain rfl := Option.some.inj (congrArg Prod.snd (Option.some.inj hr))
  exact absurd hdiff (by decide)

end TestTime
end Timing
end BreUtils
