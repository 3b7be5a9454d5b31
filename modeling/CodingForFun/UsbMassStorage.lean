import CodingForFun.Lib.Cells
import Mathlib.Data.List.Basic

/-!
# The quirks of the USB storage driver

`adjust_quirks` of `src/kernel/usb_mass_storage/usb.c` looks a device up in the module parameter `quirks`, a string
of entries `vid:pid:flags` with commas in between. The first entry with the numbers of the device counts, however
its numbers are written, and what follows does not matter (`adjustQuirks_first`).

The flags are constants of a header that is not there, so they are parameters. `simple_strtoul` is a function of the
kernel, which is not there either; it is modelled after its documentation.
-/

namespace CodingForFun.UsbMassStorage

open Lib

/-- The `US_FL_` constants that a letter stands for. -/
structure Flags where
  saneSense : BitVec 32
  badSense : BitVec 32
  fixCapacity : BitVec 32
  noReadDiscInfo : BitVec 32
  noReadCapacity16 : BitVec 32
  capacityHeuristics : BitVec 32
  ignoreDevice : BitVec 32
  notLockable : BitVec 32
  maxSectors64 : BitVec 32
  initialRead10 : BitVec 32
  capacityOk : BitVec 32
  writeCache : BitVec 32
  ignoreResidue : BitVec 32
  singleLun : BitVec 32
  noWpDetect : BitVec 32

/-- The flags that `quirks` decides. -/
def Flags.mask (fl : Flags) : BitVec 32 :=
  fl.saneSense ||| fl.badSense ||| fl.fixCapacity ||| fl.capacityHeuristics ||| fl.ignoreDevice |||
    fl.notLockable ||| fl.maxSectors64 ||| fl.capacityOk ||| fl.ignoreResidue ||| fl.singleLun |||
    fl.noWpDetect ||| fl.noReadDiscInfo ||| fl.noReadCapacity16 ||| fl.initialRead10 ||| fl.writeCache

/-- `TOLOWER` -/
def toLower (c : Char) : ℕ := c.toNat ||| 0x20

/-- The flag of a letter; unrecognized flag characters are ignored. -/
def Flags.ofChar (fl : Flags) (c : Char) : BitVec 32 :=
  match Char.ofNat (toLower c) with
  | 'a' => fl.saneSense
  | 'b' => fl.badSense
  | 'c' => fl.fixCapacity
  | 'd' => fl.noReadDiscInfo
  | 'e' => fl.noReadCapacity16
  | 'h' => fl.capacityHeuristics
  | 'i' => fl.ignoreDevice
  | 'l' => fl.notLockable
  | 'm' => fl.maxSectors64
  | 'n' => fl.initialRead10
  | 'o' => fl.capacityOk
  | 'p' => fl.writeCache
  | 'r' => fl.ignoreResidue
  | 's' => fl.singleLun
  | 'w' => fl.noWpDetect
  | _ => 0

/-! ## `simple_strtoul` with base 16 -/

def hexValue (c : Char) : Option ℕ :=
  if 48 ≤ c.toNat ∧ c.toNat ≤ 57 then some (c.toNat - 48)
  else if 97 ≤ toLower c ∧ toLower c ≤ 102 then some (toLower c - 87)
  else none

/-- The digits, as long as there are any; an `unsigned long` has 64 bits. -/
def strtoulLoop (value : ℕ) : List Char → ℕ × List Char
  | [] => (value, [])
  | c :: p =>
    match hexValue c with
    | none => (value, c :: p)
    | some d => strtoulLoop ((value * 16 + d) % 0x10000000000000000) p

/-- `0x` in front of the digits -/
def skipMark (p : List Char) : List Char :=
  match p with
  | z :: x :: rest => if z = '0' ∧ toLower x = 120 then rest else p
  | _ => p

/-- The number and what is left of the string -/
def simpleStrtoul (p : List Char) : ℕ × List Char := strtoulLoop 0 (skipMark p)

/-! ## `adjust_quirks` -/

/-- The condition of the first loop, and where it leaves `p`. -/
def matchEntry (vid pid : ℕ) (p : List Char) : Bool × List Char :=
  let number := simpleStrtoul p
  if vid = number.1 ∧ number.2.head? = some ':' then
    let number' := simpleStrtoul number.2.tail
    (decide (pid = number'.1 ∧ number'.2.head? = some ':'), number'.2)
  else (false, number.2)

/-- Move forward to the next entry. -/
def nextEntry : List Char → List Char
  | [] => []
  | c :: p => if c = ',' then p else nextEntry p

/-- The first loop, cut off after `fuel` rounds; it ends at the colon in front of the flags. -/
def findEntry (vid pid : ℕ) : ℕ → List Char → Except Fault (List Char)
  | 0, _ => .error .unbounded
  | fuel + 1, p =>
    if p = [] then .ok []
    else
      let found := matchEntry vid pid p
      if found.1 then .ok found.2 else findEntry vid pid fuel (nextEntry found.2)

/-- Collect the flags. -/
def collect (fl : Flags) (f : BitVec 32) : List Char → BitVec 32
  | [] => f
  | c :: p => if c = ',' then f else collect fl (f ||| fl.ofChar c) p

def adjustQuirks (fl : Flags) (quirks : List Char) (vid pid : BitVec 16) (fflags : BitVec 32) :
    Except Fault (BitVec 32) := do
  let p ← findEntry vid.toNat pid.toNat (quirks.length + 1) quirks
  if p = [] then .ok fflags -- No match
  else .ok ((fflags &&& ~~~fl.mask) ||| collect fl 0 p.tail)

/-! ## Up to a comma -/

variable {vid pid : ℕ} {fl : Flags} {c p r : List Char}

theorem strtoulLoop_comma (value : ℕ) (p r : List Char) : strtoulLoop value (p ++ ',' :: r) =
    ((strtoulLoop value p).1, (strtoulLoop value p).2 ++ ',' :: r) := by
  induction p generalizing value with
  | nil => rfl
  | cons c p ih =>
    rw [List.cons_append, strtoulLoop, strtoulLoop]
    cases hexValue c with
    | none => rfl
    | some d => exact ih _

theorem skipMark_comma (p r : List Char) : skipMark (p ++ ',' :: r) = skipMark p ++ ',' :: r := by
  match p with
  | [] => cases r <;> rfl
  | [z] => exact if_neg fun h => absurd h.2 (by decide)
  | z :: x :: p =>
    unfold skipMark
    simp only [List.cons_append]
    split <;> rfl

theorem simpleStrtoul_comma (p r : List Char) : simpleStrtoul (p ++ ',' :: r) =
    ((simpleStrtoul p).1, (simpleStrtoul p).2 ++ ',' :: r) := by
  unfold simpleStrtoul
  rw [skipMark_comma, strtoulLoop_comma]

theorem strtoulLoop_suffix (value : ℕ) (p : List Char) : (strtoulLoop value p).2 <:+ p := by
  induction p generalizing value with
  | nil => exact List.suffix_rfl
  | cons c p ih =>
    unfold strtoulLoop
    cases hexValue c with
    | none => exact List.suffix_rfl
    | some d => exact (ih _).trans (List.suffix_cons c p)

theorem skipMark_suffix (p : List Char) : skipMark p <:+ p := by
  unfold skipMark
  split
  · split
    · exact ⟨[_, _], rfl⟩
    · exact List.suffix_rfl
  · exact List.suffix_rfl

theorem simpleStrtoul_suffix (p : List Char) : (simpleStrtoul p).2 <:+ p :=
  (strtoulLoop_suffix 0 _).trans (skipMark_suffix p)

theorem head_comma (p r : List Char) : (p ++ ',' :: r).head? = some ':' ↔ p.head? = some ':' := by
  cases p with
  | nil => simp
  | cons c p => rfl

theorem matchEntry_comma (p r : List Char) : matchEntry vid pid (p ++ ',' :: r) =
    ((matchEntry vid pid p).1, (matchEntry vid pid p).2 ++ ',' :: r) := by
  unfold matchEntry
  rw [simpleStrtoul_comma]
  simp only [head_comma]
  split
  · rename_i h
    obtain ⟨q, hq⟩ : ∃ q, (simpleStrtoul p).2 = ':' :: q := List.head?_eq_some_iff.mp h.2
    rw [hq, List.cons_append, List.tail_cons, List.tail_cons, simpleStrtoul_comma]
    simp only [head_comma]
  · rfl

theorem matchEntry_suffix (vid pid : ℕ) (p : List Char) : (matchEntry vid pid p).2 <:+ p := by
  have hfirst := simpleStrtoul_suffix p
  unfold matchEntry
  dsimp only
  split
  · exact ((simpleStrtoul_suffix _).trans (List.tail_suffix _)).trans hfirst
  · exact hfirst

theorem matchEntry_colon (h : (matchEntry vid pid p).1 = true) :
    ∃ flags, (matchEntry vid pid p).2 = ':' :: flags := by
  unfold matchEntry at h ⊢
  dsimp only at h ⊢
  split at h
  · rename_i hvid
    rw [if_pos hvid]
    exact List.head?_eq_some_iff.mp (of_decide_eq_true h).2
  · cases h

theorem nextEntry_comma (hp : ',' ∉ p) (r : List Char) : nextEntry (p ++ ',' :: r) = r := by
  induction p with
  | nil => rfl
  | cons c p ih =>
    rw [List.cons_append, nextEntry, if_neg fun hc : c = ',' => hp (hc ▸ List.mem_cons_self)]
    exact ih fun hmem => hp (List.mem_cons_of_mem c hmem)

theorem nextEntry_last (hp : ',' ∉ p) : nextEntry p = [] := by
  induction p with
  | nil => rfl
  | cons c p ih =>
    rw [nextEntry, if_neg fun hc : c = ',' => hp (hc ▸ List.mem_cons_self)]
    exact ih fun hmem => hp (List.mem_cons_of_mem c hmem)

/-! ## All entries -/

/-- Texts with commas in between. -/
def joinEntries : List (List Char) → List Char
  | [] => []
  | [c] => c
  | c :: c' :: cs => c ++ ',' :: joinEntries (c' :: cs)

theorem exists_joinEntries (quirks : List Char) :
    ∃ cs, quirks = joinEntries cs ∧ ∀ c ∈ cs, ',' ∉ c := by
  suffices h : ∃ c cs, quirks = joinEntries (c :: cs) ∧ ∀ c' ∈ c :: cs, ',' ∉ c' by
    obtain ⟨c, cs, hjoin, hall⟩ := h
    exact ⟨c :: cs, hjoin, hall⟩
  induction quirks with
  | nil => exact ⟨[], [], rfl, by simp⟩
  | cons a quirks ih =>
    obtain ⟨c, cs, hjoin, hall⟩ := ih
    by_cases ha : a = ','
    · refine ⟨[], c :: cs, ?_, fun c' hc' => ?_⟩
      · rw [ha, hjoin]
        rfl
      · rcases List.mem_cons.mp hc' with rfl | hmem
        · exact List.not_mem_nil
        · exact hall c' hmem
    · refine ⟨a :: c, cs, ?_, fun c' hc' => ?_⟩
      · rw [hjoin]
        cases cs <;> rfl
      · rcases List.mem_cons.mp hc' with rfl | hmem
        · intro hcomma
          rcases List.mem_cons.mp hcomma with heq | hmem
          · exact ha heq.symm
          · exact hall c List.mem_cons_self hmem
        · exact hall c' (List.mem_cons_of_mem c hmem)

theorem matchEntry_nil : (matchEntry vid pid []).1 = false := by
  unfold matchEntry
  exact congrArg Prod.fst (if_neg fun h => absurd h.2 (by decide))

theorem findEntry_ok (vid pid : ℕ) (cs : List (List Char)) (hcs : ∀ c ∈ cs, ',' ∉ c) (fuel : ℕ)
    (hfuel : (joinEntries cs).length < fuel) :
    ∃ q, findEntry vid pid fuel (joinEntries cs) = .ok q ∧
      match cs.find? (fun c => (matchEntry vid pid c).1) with
      | none => q = []
      | some c => ∃ rest, q = (matchEntry vid pid c).2 ++ rest ∧ (rest = [] ∨ ∃ r, rest = ',' :: r) := by
  induction fuel generalizing cs with
  | zero => exact absurd hfuel (Nat.not_lt_zero _)
  | succ fuel ih =>
    match cs with
    | [] => exact ⟨[], if_pos rfl, rfl⟩
    | [c] =>
      by_cases hc : c = []
      · refine ⟨[], if_pos hc, ?_⟩
        rw [hc, List.find?_cons_of_neg (by rw [matchEntry_nil]; decide)]
        rfl
      · cases hmatch : (matchEntry vid pid c).1 with
        | true =>
          refine ⟨(matchEntry vid pid c).2, ?_, ?_⟩
          · show findEntry vid pid (fuel + 1) c = _
            rw [findEntry, if_neg hc]
            exact if_pos hmatch
          · rw [List.find?_cons_of_pos (by rw [hmatch])]
            exact ⟨[], (List.append_nil _).symm, .inl rfl⟩
        | false =>
          have hlast : nextEntry (matchEntry vid pid c).2 = [] :=
            nextEntry_last fun hmem => hcs c List.mem_cons_self ((matchEntry_suffix vid pid c).subset hmem)
          have hpos : 0 < fuel := by
            have hlen : 0 < c.length := List.length_pos_iff.mpr hc
            have hjoin : joinEntries [c] = c := rfl
            rw [hjoin] at hfuel
            omega
          obtain ⟨q, hrun, hq⟩ := ih [] (by simp) hpos
          refine ⟨q, ?_, ?_⟩
          · show findEntry vid pid (fuel + 1) c = _
            rw [findEntry, if_neg hc]
            simp only [hmatch, hlast]
            exact hrun
          · rw [List.find?_cons_of_neg (by rw [hmatch]; decide)]
            exact hq
    | c :: c' :: cs =>
      have hjoin : joinEntries (c :: c' :: cs) = c ++ ',' :: joinEntries (c' :: cs) := rfl
      have hne : c ++ ',' :: joinEntries (c' :: cs) ≠ [] := by simp
      rw [hjoin] at hfuel ⊢
      rw [findEntry, if_neg hne]
      simp only [matchEntry_comma]
      cases hmatch : (matchEntry vid pid c).1 with
      | true =>
        rw [List.find?_cons_of_pos (by rw [hmatch])]
        exact ⟨_, if_pos rfl, _, rfl, .inr ⟨_, rfl⟩⟩
      | false =>
        rw [List.find?_cons_of_neg (by rw [hmatch]; decide),
          nextEntry_comma fun hmem => hcs c List.mem_cons_self ((matchEntry_suffix vid pid c).subset hmem)]
        refine ih (c' :: cs) (fun c hc => hcs c (List.mem_cons_of_mem _ hc)) ?_
        rw [List.length_append, List.length_cons] at hfuel
        omega

theorem collect_eq (f : BitVec 32) (hp : ',' ∉ p) (hr : r = [] ∨ ∃ r', r = ',' :: r') :
    collect fl f (p ++ r) = p.foldl (fun f c => f ||| fl.ofChar c) f := by
  induction p generalizing f with
  | nil =>
    rcases hr with rfl | ⟨r', rfl⟩
    · rfl
    · exact if_pos rfl
  | cons c p ih =>
    rw [List.cons_append, collect, if_neg fun hc : c = ',' => hp (hc ▸ List.mem_cons_self), List.foldl_cons]
    exact ih _ fun hmem => hp (List.mem_cons_of_mem c hmem)

/-- Every string is read up to its end, as the entries between the commas, and the first one that matches counts. -/
theorem adjustQuirks_join (fl : Flags) (cs : List (List Char)) (hcs : ∀ c ∈ cs, ',' ∉ c) (vid pid : BitVec 16)
    (fflags : BitVec 32) : adjustQuirks fl (joinEntries cs) vid pid fflags =
      .ok (match cs.find? (fun c => (matchEntry vid.toNat pid.toNat c).1) with
        | none => fflags
        | some c => (fflags &&& ~~~fl.mask) |||
            (matchEntry vid.toNat pid.toNat c).2.tail.foldl (fun f c => f ||| fl.ofChar c) 0) := by
  obtain ⟨q, hrun, hq⟩ := findEntry_ok vid.toNat pid.toNat cs hcs _ (Nat.lt_succ_self _)
  unfold adjustQuirks
  rw [hrun, ok_bind]
  cases hfind : cs.find? (fun c => (matchEntry vid.toNat pid.toNat c).1) with
  | none =>
    rw [hfind] at hq
    exact if_pos hq
  | some c =>
    rw [hfind] at hq
    obtain ⟨rest, rfl, hrest⟩ := hq
    have hmatch : (matchEntry vid.toNat pid.toNat c).1 = true := by
      have hsome := List.find?_some hfind
      exact hsome
    obtain ⟨flags, hflags⟩ := matchEntry_colon hmatch
    have hcomma : ',' ∉ flags := by
      intro hmem
      have hsub := (matchEntry_suffix vid.toNat pid.toNat c).subset
      rw [hflags] at hsub
      exact hcs c (List.mem_of_find?_eq_some hfind) (hsub (List.mem_cons_of_mem _ hmem))
    dsimp only
    rw [hflags, List.cons_append, if_neg (List.cons_ne_nil _ _), List.tail_cons, List.tail_cons,
      collect_eq 0 hcomma hrest]

theorem adjustQuirks_ok (fl : Flags) (quirks : List Char) (vid pid : BitVec 16) (fflags : BitVec 32) :
    ∃ fflags', adjustQuirks fl quirks vid pid fflags = .ok fflags' := by
  obtain ⟨cs, rfl, hcs⟩ := exists_joinEntries quirks
  exact ⟨_, adjustQuirks_join fl cs hcs vid pid fflags⟩

/-! ## Entries as they are written -/

/-- A hexadecimal digit, of either case -/
abbrev HexDigit : Type := {c : Char // (hexValue c).isSome}

def digitValue (d : HexDigit) : ℕ := (hexValue d.val).get d.property

/-- The digits as they are written -/
def hex (ds : List HexDigit) : List Char := ds.map Subtype.val

/-- Their value as an `unsigned long` -/
def value (ds : List HexDigit) : ℕ := ds.foldl (fun v d => v * 16 + digitValue d) 0 % 0x10000000000000000

/-- `vid:pid:flags` -/
structure Entry where
  vid : List HexDigit
  pid : List HexDigit
  flags : List Char

def Entry.text (en : Entry) : List Char := hex en.vid ++ ':' :: (hex en.pid ++ ':' :: en.flags)

theorem hexValue_digit (d : HexDigit) : hexValue d.val = some (digitValue d) := (Option.some_get d.property).symm

theorem strtoulLoop_hex (ds : List HexDigit) (v : ℕ) (r : List Char) :
    strtoulLoop (v % 0x10000000000000000) (hex ds ++ ':' :: r) =
      (ds.foldl (fun v d => v * 16 + digitValue d) v % 0x10000000000000000, ':' :: r) := by
  induction ds generalizing v with
  | nil => rfl
  | cons d ds ih =>
    have hstep : (v % 0x10000000000000000 * 16 + digitValue d) % 0x10000000000000000 =
        (v * 16 + digitValue d) % 0x10000000000000000 := by
      omega
    unfold hex at ih ⊢
    rw [List.map_cons, List.cons_append, strtoulLoop, hexValue_digit]
    dsimp only
    rw [hstep, ih, List.foldl_cons]

theorem HexDigit.ne_mark (d : HexDigit) : toLower d.val ≠ 120 := by
  obtain ⟨c, hc⟩ := d
  unfold hexValue at hc
  split at hc
  · rename_i hdigit
    have hlow : c.toNat ||| 0x20 < 2 ^ 6 := Nat.or_lt_two_pow (by omega) (by decide)
    exact fun hx : c.toNat ||| 0x20 = 120 => by omega
  · split at hc
    · rename_i hletter
      exact fun hx : toLower c = 120 => by omega
    · cases hc

theorem skipMark_hex (ds : List HexDigit) (r : List Char) : skipMark (hex ds ++ ':' :: r) = hex ds ++ ':' :: r := by
  match ds with
  | [] => cases r <;> rfl
  | [d] => exact if_neg fun h => absurd h.2 (by decide)
  | d :: d' :: ds => exact if_neg fun h => HexDigit.ne_mark d' h.2

theorem simpleStrtoul_hex (ds : List HexDigit) (r : List Char) :
    simpleStrtoul (hex ds ++ ':' :: r) = (value ds, ':' :: r) := by
  unfold simpleStrtoul
  rw [skipMark_hex]
  exact strtoulLoop_hex ds 0 r

theorem matchEntry_text (vid pid : ℕ) (en : Entry) :
    ((matchEntry vid pid en.text).1 = decide (vid = value en.vid ∧ pid = value en.pid)) ∧
      (vid = value en.vid → (matchEntry vid pid en.text).2 = ':' :: en.flags) := by
  unfold matchEntry Entry.text
  rw [simpleStrtoul_hex]
  dsimp only
  by_cases hvid : vid = value en.vid
  · rw [if_pos ⟨hvid, rfl⟩, List.tail_cons, simpleStrtoul_hex]
    refine ⟨?_, fun _ => rfl⟩
    simp [hvid]
  · rw [if_neg fun h => hvid h.1]
    exact ⟨(decide_eq_false fun h => hvid h.1).symm, fun h => absurd h hvid⟩

theorem comma_notMem_text (en : Entry) (hflags : ',' ∉ en.flags) : ',' ∉ en.text := by
  have hhex : ∀ ds : List HexDigit, ',' ∉ hex ds := by
    intro ds hmem
    obtain ⟨⟨c, hc⟩, -, rfl⟩ := List.mem_map.mp hmem
    exact absurd hc (by decide)
  intro hmem
  rcases List.mem_append.mp hmem with hmem | hmem
  · exact hhex _ hmem
  · rcases List.mem_cons.mp hmem with heq | hmem
    · exact absurd heq (by decide)
    · rcases List.mem_append.mp hmem with hmem | hmem
      · exact hhex _ hmem
      · rcases List.mem_cons.mp hmem with heq | hmem
        · exact absurd heq (by decide)
        · exact hflags hmem

/-- The flags of the first entry with the numbers of the device replace those that `quirks` decides, with any number
of digits of either case; without such an entry nothing changes. -/
theorem adjustQuirks_first (fl : Flags) (es : List Entry) (hes : ∀ en ∈ es, ',' ∉ en.flags) (vid pid : BitVec 16)
    (fflags : BitVec 32) : adjustQuirks fl (joinEntries (es.map Entry.text)) vid pid fflags =
      .ok (match es.find? (fun en => vid.toNat = value en.vid ∧ pid.toNat = value en.pid) with
        | none => fflags
        | some en => (fflags &&& ~~~fl.mask) ||| en.flags.foldl (fun f c => f ||| fl.ofChar c) 0) := by
  have hcs : ∀ c ∈ es.map Entry.text, ',' ∉ c := by
    intro c hc
    obtain ⟨en, hen, rfl⟩ := List.mem_map.mp hc
    exact comma_notMem_text en (hes en hen)
  have hsame : (fun c => (matchEntry vid.toNat pid.toNat c).1) ∘ Entry.text =
      fun en : Entry => decide (vid.toNat = value en.vid ∧ pid.toNat = value en.pid) := by
    funext en
    exact (matchEntry_text vid.toNat pid.toNat en).1
  rw [adjustQuirks_join fl _ hcs, List.find?_map, hsame]
  cases hfind : es.find? (fun en => vid.toNat = value en.vid ∧ pid.toNat = value en.pid) with
  | none => rfl
  | some en =>
    have hsome := List.find?_some hfind
    have hen : vid.toNat = value en.vid ∧ pid.toNat = value en.pid := of_decide_eq_true hsome
    rw [Option.map_some]
    dsimp only
    rw [(matchEntry_text vid.toNat pid.toNat en).2 hen.1, List.tail_cons]

/-- Flags that differ, as those of the header do. -/
def header : Flags := ⟨1, 2, 4, 8, 16, 32, 64, 128, 256, 512, 1024, 2048, 4096, 8192, 16384⟩

def threeEntries : List Entry :=
  [⟨[⟨'1', rfl⟩], [⟨'2', rfl⟩], ['i']⟩,
    ⟨[⟨'0', rfl⟩, ⟨'4', rfl⟩, ⟨'1', rfl⟩, ⟨'9', rfl⟩],
      [⟨'A', rfl⟩, ⟨'a', rfl⟩, ⟨'F', rfl⟩, ⟨'5', rfl⟩], ['r', 'S']⟩,
    ⟨[⟨'4', rfl⟩, ⟨'1', rfl⟩, ⟨'9', rfl⟩], [⟨'a', rfl⟩, ⟨'a', rfl⟩, ⟨'f', rfl⟩, ⟨'5', rfl⟩], ['m']⟩]

/-- The second entry counts. -/
theorem adjustQuirks_first_second :
    adjustQuirks header "1:2:i,0419:AaF5:rS,419:aaf5:m".toList 0x419 0xAAF5 0x8005 = .ok 0xB000 := by
  have htext : "1:2:i,0419:AaF5:rS,419:aaf5:m".toList = joinEntries (threeEntries.map Entry.text) := by
    decide +kernel
  rw [htext, adjustQuirks_first header threeEntries (by decide)]
  exact congrArg Except.ok (by decide +kernel)

end CodingForFun.UsbMassStorage
