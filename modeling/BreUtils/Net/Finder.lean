/-
# The announcements of `net/Finder.hpp`

A host announces itself with a line of four fields, `ToString`, and who hears it reads
the line with `Parse`.  `Parse` splits the line at the commas, `StringSplit`, and takes
it for an announcement if there are four pieces, the first is `0` or `1`, and the second
is not empty.

`StringSplit` undoes joining for every separator that is not empty: its pieces joined
give the text back, and no piece contains the separator (`stringSplit_joins`).  For an
empty separator its loop has no end.  So the pieces of a line of `ToString` are its
fields exactly if no field holds a comma, and only then `Parse` reads the line back
(`parse_toString_iff`): a comma in a field makes a fifth piece, and `ToString` does not
mark it.
-/

import BreUtils.Lib.Cutting
import BreUtils.Cpp.Text

namespace BreUtils
namespace Net

open Lib Cpp

/-- `HostInfo`. -/
structure HostInfo where
  /-- `0`: it joins, `1`: it leaves. -/
  state : Cpp.Bytes
  ip : Cpp.Bytes
  name : Cpp.Bytes
  mac : Cpp.Bytes
  deriving DecidableEq

/-- What `HostInfo::Parse` returns, the object that it leaves, and what it writes to `std::cerr`. -/
structure Parsed where
  result : Bool
  host : HostInfo
  cerr : Cpp.Bytes
  deriving DecidableEq

namespace HostInfo

/-- `str.find(spliter, pos)`; `none` stands for `npos`. -/
def stringFind (str spliter : Cpp.Bytes) (pos : ℕ) : Option ℕ :=
  if pos ≤ str.length then (position spliter (str.drop pos)).map (pos + ·) else none

/-- The `while` loop of `StringSplit` and the `push_back` behind it, for `fuel` rounds at most. -/
def splitLoop (str spliter : Cpp.Bytes) : ℕ → ℕ → List Cpp.Bytes → Except Exn (List Cpp.Bytes)
  | 0, _, _ => .error .outOfFuel
  | fuel + 1, pos, vec =>
      match stringFind str spliter pos with
      | some newPos => do
          let piece ← substr str pos (newPos - pos)
          splitLoop str spliter fuel (newPos + spliter.length) (vec ++ [piece])
      | none => do
          let piece ← substr str pos str.length
          return vec ++ [piece]

/-- `HostInfo::StringSplit`. -/
def stringSplit (fuel : ℕ) (str spliter : Cpp.Bytes) : Except Exn (List Cpp.Bytes) :=
  splitLoop str spliter fuel 0 []

/-- `HostInfo::ToString`. -/
def toString (h : HostInfo) : Cpp.Bytes :=
  h.state ++ ascii "," ++ h.ip ++ ascii "," ++ h.name ++ ascii "," ++ h.mac

/-- The way out through the `catch`. -/
def parseFails (h : HostInfo) (what : String) (str : Cpp.Bytes) : Parsed :=
  ⟨false, h, ascii what ++ str ++ ascii "\n"⟩

/-- `Parse` behind the call of `StringSplit`.  The fields are assigned before they are looked at. -/
def parsePieces (h : HostInfo) (str : Cpp.Bytes) : List Cpp.Bytes → Parsed
  | [state, ip, name, mac] =>
      if state ≠ ascii "0" ∧ state ≠ ascii "1" then
        parseFails ⟨state, ip, name, mac⟩ "Error parsing state not 0 1: " str
      else if ip = [] then
        parseFails ⟨state, ip, name, mac⟩ "Error parsing Ip.empty: " str
      else ⟨true, ⟨state, ip, name, mac⟩, []⟩
  | _ => parseFails h "Error parsing message: " str

/-- `HostInfo::Parse`.  What `StringSplit` throws would be caught as well, but it does not throw
(`parse_eq`). -/
def parse (h : HostInfo) (str : Cpp.Bytes) : Except Exn Parsed :=
  (stringSplit (str.length + 1) str (ascii ",")).map (parsePieces h str)

/-! ### Splitting -/

variable {str spliter : Cpp.Bytes} {pos : ℕ}

/-- **From any `pos` on the pieces joined are what is left of the text**, and none of them contains
the separator.  Each round leaves less of it. -/
theorem splitLoop_joins (hne : spliter ≠ []) (hpos : pos ≤ str.length) :
    ∃ pieces, pieces ≠ [] ∧ spliter.intercalate pieces = str.drop pos ∧
      (∀ piece ∈ pieces, ¬ spliter <:+: piece) ∧
      ∀ fuel vec, str.length - pos < fuel →
        splitLoop str spliter fuel pos vec = .ok (vec ++ pieces) := by
  induction hn : str.length - pos using Nat.strong_induction_on generalizing pos with
  | _ n ih =>
      have hlength := List.length_pos_iff.2 hne
      cases hp : position spliter (str.drop pos) with
      | none =>
          refine ⟨[str.drop pos], by simp, by simp, ?_, fun fuel vec hfuel => ?_⟩
          · intro piece hpiece
            obtain rfl := List.mem_singleton.1 hpiece
            exact position_eq_none_iff.1 hp
          · obtain ⟨fuel, rfl⟩ := Nat.exists_eq_succ_of_ne_zero (by omega : fuel ≠ 0)
            have htake : (str.drop pos).take str.length = str.drop pos :=
              List.take_of_length_le (by simp)
            simp [splitLoop, stringFind, substr, hpos, hp, htake]
      | some p =>
          have hle := add_le_of_position hp
          rw [List.length_drop] at hle
          have hnext : pos + p + spliter.length ≤ str.length := by omega
          obtain ⟨pieces, hpieces, hjoin, hmem, hloop⟩ := ih _ (by omega) hnext rfl
          refine ⟨(str.drop pos).take p :: pieces, by simp, ?_, ?_, fun fuel vec hfuel => ?_⟩
          · rw [List.intercalate_cons_of_ne_nil hpieces, hjoin]
            have hsplit := take_append_drop_of_position hp
            rwa [List.drop_drop, ← Nat.add_assoc] at hsplit
          · intro piece hpiece
            rcases List.mem_cons.1 hpiece with rfl | hpiece
            · exact not_infix_take_of_position hne hp
            · exact hmem piece hpiece
          · obtain ⟨fuel, rfl⟩ := Nat.exists_eq_succ_of_ne_zero (by omega : fuel ≠ 0)
            have hrest := hloop fuel (vec ++ [(str.drop pos).take p]) (by omega)
            rw [List.append_assoc] at hrest
            simpa [splitLoop, stringFind, substr, hpos, hp] using hrest

/-- **Splitting undoes joining**: for a separator that is not empty `StringSplit` returns pieces
that joined give the text, and no piece contains the separator. -/
theorem stringSplit_joins (str spliter : Cpp.Bytes) (hne : spliter ≠ []) :
    ∃ pieces, (∀ fuel, str.length < fuel → stringSplit fuel str spliter = .ok pieces) ∧
      spliter.intercalate pieces = str ∧ ∀ piece ∈ pieces, ¬ spliter <:+: piece := by
  obtain ⟨pieces, -, hjoin, hmem, hloop⟩ := splitLoop_joins hne (Nat.zero_le str.length)
  exact ⟨pieces, fun fuel hfuel => hloop fuel [] hfuel, hjoin, hmem⟩

/-- A separator that overlaps itself, in a text where it does so. -/
theorem stringSplit_joins_aa : ∃ pieces,
    (∀ fuel, 3 < fuel → stringSplit fuel (ascii "aaa") (ascii "aa") = .ok pieces) ∧
      (ascii "aa").intercalate pieces = ascii "aaa" ∧
        ∀ piece ∈ pieces, ¬ ascii "aa" <:+: piece :=
  stringSplit_joins (ascii "aaa") (ascii "aa") (by decide)

example : stringSplit 4 (ascii "aaa") (ascii "aa") = .ok [[], ascii "a"] := by decide

/-- At a single byte, the pieces are those between its occurrences. -/
theorem stringSplit_singleton (str : Cpp.Bytes) (c : UInt8) :
    stringSplit (str.length + 1) str [c] = .ok (str.splitOn c) ∧
      ∀ piece ∈ str.splitOn c, c ∉ piece := by
  have hsep : [c] ≠ [] := by simp
  obtain ⟨pieces, hne, hjoin, hmem, hloop⟩ := splitLoop_joins hsep (Nat.zero_le str.length)
  have hfree : ∀ piece ∈ pieces, c ∉ piece := fun piece hpiece hc =>
    hmem piece hpiece ((List.singleton_infix_iff c piece).2 hc)
  have hsplit : str.splitOn c = pieces := by
    rw [List.drop_zero] at hjoin
    rw [← hjoin]
    exact List.splitOn_intercalate c hfree hne
  rw [hsplit]
  exact ⟨hloop _ [] (by omega), hfree⟩

/-! ### The round trip -/

variable {g h : HostInfo}

/-- The pieces of a line of announcement are the fields. -/
theorem splitOn_toString (hstate : ch ',' ∉ h.state) (hip : ch ',' ∉ h.ip)
    (hname : ch ',' ∉ h.name) (hmac : ch ',' ∉ h.mac) :
    h.toString.splitOn (ch ',') = [h.state, h.ip, h.name, h.mac] := by
  have hjoin : h.toString = [ch ','].intercalate [h.state, h.ip, h.name, h.mac] := by
    simp [toString, ascii, List.intercalate_cons_cons]
  rw [hjoin]
  exact List.splitOn_intercalate (ch ',') (by simp [hstate, hip, hname, hmac]) (by simp)

/-- `Parse` returns for every line. -/
theorem parse_eq (g : HostInfo) (str : Cpp.Bytes) :
    g.parse str = .ok (g.parsePieces str (str.splitOn (ch ','))) := by
  unfold parse
  rw [show ascii "," = [ch ','] from rfl, (stringSplit_singleton str (ch ',')).1]
  rfl

/-- Four pieces, of which the first is a state and the second is not empty, are taken. -/
theorem parsePieces_fields (hstate : h.state = ascii "0" ∨ h.state = ascii "1") (hip : h.ip ≠ []) :
    g.parsePieces str [h.state, h.ip, h.name, h.mac] = ⟨true, h, []⟩ := by
  have hstate' : ¬ (h.state ≠ ascii "0" ∧ h.state ≠ ascii "1") := by
    rw [not_and_or, not_not, not_not]
    exact hstate
  simp only [parsePieces, if_neg hstate', if_neg hip]

/-- Only four pieces are taken. -/
theorem length_of_parsePieces {vec : List Cpp.Bytes} (hr : (g.parsePieces str vec).result = true) :
    vec.length = 4 := by
  unfold parsePieces at hr
  split at hr
  · rfl
  · exact absurd hr (by simp [parseFails])

/-- **`Parse` takes a line of `ToString` exactly if no field holds a comma, and reads the fields
then.** -/
theorem parse_toString_iff (g h : HostInfo) (hstate : h.state = ascii "0" ∨ h.state = ascii "1")
    (hip : h.ip ≠ []) : ∃ r, g.parse h.toString = .ok r ∧
      (r.result = true ↔ ch ',' ∉ h.ip ∧ ch ',' ∉ h.name ∧ ch ',' ∉ h.mac) ∧
      (r.result = true → r.host = h) := by
  have hstate' : ch ',' ∉ h.state := by
    rcases hstate with hs | hs <;> rw [hs] <;> decide
  have htaken (hfree : ch ',' ∉ h.ip ∧ ch ',' ∉ h.name ∧ ch ',' ∉ h.mac) :
      g.parsePieces h.toString (h.toString.splitOn (ch ',')) = ⟨true, h, []⟩ := by
    rw [splitOn_toString hstate' hfree.1 hfree.2.1 hfree.2.2]
    exact parsePieces_fields hstate hip
  have hresult : (g.parsePieces h.toString (h.toString.splitOn (ch ','))).result = true ↔
      ch ',' ∉ h.ip ∧ ch ',' ∉ h.name ∧ ch ',' ∉ h.mac := by
    refine ⟨fun hr => ?_, fun hfree => by rw [htaken hfree]⟩
    have hcount := count_intercalate (List.splitOn_ne_nil (ch ',') h.toString)
      (stringSplit_singleton h.toString (ch ',')).2
    rw [List.intercalate_splitOn, length_of_parsePieces hr] at hcount
    have hzero :
        h.ip.count (ch ',') = 0 ∧ h.name.count (ch ',') = 0 ∧ h.mac.count (ch ',') = 0 := by
      simp only [toString, List.count_append, show ascii "," = [ch ','] from rfl,
        List.count_singleton_self] at hcount
      omega
    simpa only [List.count_eq_zero] using hzero
  refine ⟨_, parse_eq g h.toString, hresult, fun hr => ?_⟩
  rw [htaken (hresult.1 hr)]

/-- An announcement as the comment in `ToString` has it. -/
theorem parse_toString_test :
    let h : HostInfo := ⟨ascii "0", ascii "192.1.1.1", ascii "test", ascii "00:00:00:00:00:00"⟩
    ∃ r, h.parse h.toString = .ok r ∧
      (r.result = true ↔ ch ',' ∉ h.ip ∧ ch ',' ∉ h.name ∧ ch ',' ∉ h.mac) ∧
      (r.result = true → r.host = h) :=
  parse_toString_iff _ _ (Or.inl rfl) (by decide)

/-- A name with a comma. -/
theorem not_parse_toString :
    ¬ ∀ g h : HostInfo, (h.state = ascii "0" ∨ h.state = ascii "1") → h.ip ≠ [] →
      ∃ r, g.parse h.toString = .ok r ∧ r.result = true ∧ r.host = h := by
  intro hall
  let h : HostInfo := ⟨ascii "0", ascii "192.1.1.1", ascii "desk, left", []⟩
  obtain ⟨r, hr, hresult, -⟩ := hall h h (Or.inl rfl) (by decide)
  have hparse : h.parse h.toString =
      .ok (parseFails h "Error parsing message: " h.toString) := by decide
  rw [hparse] at hr
  obtain rfl := Except.ok.inj hr
  exact absurd hresult (by decide)

end HostInfo
end Net
end BreUtils
