import Pktflow.Lib.Ipv6Text
import Pktflow.View.Record

/-!
# Addresses as they are shown

`ipv6_compressed_str` writes the recommended text of an address, which the grammar of the text forms reads as the
address again (`ipv6CompressedStr_law`). So no two addresses are shown alike.
-/

set_option autoImplicit false

namespace Pktflow.View

open Pktflow.Core Pktflow.Lib Pktflow.Lib.Ipv6Text

/-! ## The run that is left out -/

section Runs

variable {groups : List Nat} {runs : List (Nat × Nat)} {g i start len : Nat}

theorem zeroRuns_cons_pos (h : g ≠ 0) : zeroRuns (g :: groups) i = zeroRuns groups (i + 1) := by
  rw [zeroRuns]
  · rintro start len runs rfl
    exact absurd rfl h
  · rintro rfl
    exact absurd rfl h

/-- What stands in front of the runs behind it: a run that begins there. -/
theorem zeroRuns_cons_zero (groups : List Nat) (i : Nat) :
    (zeroRuns (0 :: groups) i = (i, 1) :: zeroRuns groups (i + 1) ∧
        ∀ r ∈ (zeroRuns groups (i + 1)).head?, r.1 ≠ i + 1) ∨
      ∃ len runs, zeroRuns groups (i + 1) = (i + 1, len) :: runs ∧ zeroRuns (0 :: groups) i = (i, len + 1) :: runs := by
  cases hruns : zeroRuns groups (i + 1) with
  | nil =>
      left
      exact ⟨by simp only [zeroRuns, hruns], nofun⟩
  | cons run runs =>
      obtain ⟨start, len⟩ := run
      by_cases hstart : start = i + 1
      · right
        refine ⟨len, runs, by rw [hstart], ?_⟩
        simp only [zeroRuns, hruns, if_pos hstart]
      · left
        refine ⟨by simp only [zeroRuns, hruns, if_neg hstart], ?_⟩
        intro r hr
        rw [← Option.some.inj hr]
        exact hstart

/-- The runs from group `i` on: from left to right, each of zeros, and every run of zeros in one of them. -/
structure ListsRuns (groups : List Nat) (i : Nat) (runs : List (Nat × Nat)) : Prop where
  ordered : runs.Pairwise fun r s => r.1 < s.1
  start_le : ∀ r ∈ runs, i ≤ r.1
  zero : ∀ r ∈ runs, ZeroRun groups (r.1 - i) r.2
  all : ∀ start len, ZeroRun groups start len → 1 ≤ len → ∃ r ∈ runs, r.1 ≤ i + start ∧ i + start + len ≤ r.1 + r.2

theorem zeroRun_cons_succ : ZeroRun (g :: groups) (start + 1) len ↔ ZeroRun groups start len := by
  apply forall₂_congr
  intro j _
  rw [Nat.add_right_comm, List.getElem?_cons_succ]

/-- A run that begins with a group goes on behind it. -/
theorem zeroRun_zero_succ : ZeroRun (g :: groups) 0 (len + 1) ↔ g = 0 ∧ ZeroRun groups 0 len := by
  constructor
  · intro h
    refine ⟨Option.some.inj (h 0 (Nat.succ_pos len)), ?_⟩
    intro j hj
    have hzero := h (j + 1) (Nat.succ_lt_succ hj)
    rw [Nat.zero_add, List.getElem?_cons_succ] at hzero
    rwa [Nat.zero_add]
  · rintro ⟨rfl, h⟩ j hj
    cases j with
    | zero => rfl
    | succ j =>
        rw [Nat.zero_add, List.getElem?_cons_succ]
        have hzero := h j (Nat.lt_of_succ_lt_succ hj)
        rwa [Nat.zero_add] at hzero

/-- A run of the groups behind is a run of all. -/
theorem ListsRuns.shift {r : Nat × Nat} (h : ListsRuns groups (i + 1) runs) (hr : r ∈ runs) :
    ZeroRun (g :: groups) (r.1 - i) r.2 := by
  have hfrom := h.start_le r hr
  have hsub : r.1 - i = r.1 - (i + 1) + 1 := by omega
  rw [hsub, zeroRun_cons_succ]
  exact h.zero r hr

/-- Behind a group that is not zero the runs are those of all. -/
theorem ListsRuns.cons_pos (h : ListsRuns groups (i + 1) runs) (hg : g ≠ 0) : ListsRuns (g :: groups) i runs := by
  constructor
  · exact h.ordered
  · exact fun r hr => Nat.le_of_succ_le (h.start_le r hr)
  · exact fun r hr => h.shift hr
  · intro start len hrun hlen
    cases start with
    | zero =>
        obtain ⟨len, rfl⟩ := Nat.exists_eq_add_one_of_ne_zero (show len ≠ 0 by omega)
        exact absurd (zeroRun_zero_succ.1 hrun).1 hg
    | succ start =>
        obtain ⟨r, hr, hle, hend⟩ := h.all start len (zeroRun_cons_succ.1 hrun) hlen
        exact ⟨r, hr, by omega, by omega⟩

/-- A zero in front of `len` zeros, where every run behind is among these or in a run that does not touch them. -/
theorem listsRuns_cons_zero (hordered : runs.Pairwise fun r s => r.1 < s.1) (hbehind : ∀ r ∈ runs, i + 1 < r.1)
    (hzero : ∀ r ∈ runs, ZeroRun (0 :: groups) (r.1 - i) r.2) (hfirst : ZeroRun groups 0 len)
    (hall : ∀ start len', ZeroRun groups start len' → 1 ≤ len' → start + len' ≤ len ∨
      ∃ r ∈ runs, r.1 ≤ i + 1 + start ∧ i + 1 + start + len' ≤ r.1 + r.2) :
    ListsRuns (0 :: groups) i ((i, len + 1) :: runs) := by
  constructor
  · refine List.pairwise_cons.2 ⟨?_, hordered⟩
    exact fun r hr => Nat.lt_of_succ_lt (hbehind r hr)
  · refine List.forall_mem_cons.2 ⟨Nat.le_refl i, ?_⟩
    exact fun r hr => Nat.le_of_lt (Nat.lt_of_succ_lt (hbehind r hr))
  · refine List.forall_mem_cons.2 ⟨?_, hzero⟩
    dsimp only
    rw [Nat.sub_self]
    exact zeroRun_zero_succ.2 ⟨rfl, hfirst⟩
  · intro start len' hrun hlen
    cases start with
    | zero =>
        obtain ⟨len', rfl⟩ := Nat.exists_eq_add_one_of_ne_zero (show len' ≠ 0 by omega)
        refine ⟨(i, len + 1), List.mem_cons_self, Nat.le_refl i, ?_⟩
        dsimp only
        by_cases hnone : len' = 0
        · omega
        · -- the run goes on behind the zero, so it is not in a run that does not touch it
          rcases hall 0 len' (zeroRun_zero_succ.1 hrun).2 (by omega) with hle | ⟨r, hr, hle, -⟩
          · omega
          · have := hbehind r hr
            omega
    | succ start =>
        rcases hall start len' (zeroRun_cons_succ.1 hrun) hlen with hle | ⟨r, hr, hle, hend⟩
        · exact ⟨(i, len + 1), List.mem_cons_self, by dsimp only; omega, by dsimp only; omega⟩
        · exact ⟨r, List.mem_cons_of_mem _ hr, by omega, by omega⟩

/-- A zero in front of a run lengthens it. -/
theorem ListsRuns.cons_join (h : ListsRuns groups (i + 1) ((i + 1, len) :: runs)) :
    ListsRuns (0 :: groups) i ((i, len + 1) :: runs) := by
  obtain ⟨hfirst, hordered⟩ := List.pairwise_cons.1 h.ordered
  refine listsRuns_cons_zero hordered hfirst (fun r hr => h.shift (List.mem_cons_of_mem _ hr)) ?_ ?_
  · have hzero := h.zero (i + 1, len) List.mem_cons_self
    dsimp only at hzero
    rwa [Nat.sub_self] at hzero
  · intro start len' hrun hlen
    obtain ⟨r, hr, hle, hend⟩ := h.all start len' hrun hlen
    rcases List.mem_cons.1 hr with rfl | hr
    · left
      dsimp only at hend
      omega
    · exact .inr ⟨r, hr, hle, hend⟩

/-- A zero in front of no run is one. -/
theorem ListsRuns.cons_new (h : ListsRuns groups (i + 1) runs) (hhead : ∀ r ∈ runs.head?, r.1 ≠ i + 1) :
    ListsRuns (0 :: groups) i ((i, 1) :: runs) := by
  have hbehind : ∀ r ∈ runs, i + 1 < r.1 := by
    cases runs with
    | nil => exact fun r hr => absurd hr List.not_mem_nil
    | cons first runs =>
        have hfirst : i + 1 < first.1 :=
          Nat.lt_of_le_of_ne (h.start_le first List.mem_cons_self) (hhead first rfl).symm
        refine List.forall_mem_cons.2 ⟨hfirst, ?_⟩
        intro r hr
        exact Nat.lt_trans hfirst ((List.pairwise_cons.1 h.ordered).1 r hr)
  exact listsRuns_cons_zero h.ordered hbehind (fun r hr => h.shift hr) nofun
    fun start len' hrun hlen => .inr (h.all start len' hrun hlen)

theorem listsRuns_zeroRuns (groups : List Nat) (i : Nat) : ListsRuns groups i (zeroRuns groups i) := by
  induction groups generalizing i with
  | nil =>
      constructor
      · exact List.Pairwise.nil
      · exact fun r hr => absurd hr List.not_mem_nil
      · exact fun r hr => absurd hr List.not_mem_nil
      · intro start len hrun hlen
        have hzero := hrun 0 hlen
        rw [List.getElem?_nil] at hzero
        cases hzero
  | cons g groups ih =>
      have hrest := ih (i + 1)
      by_cases hg : g = 0
      · rw [hg]
        rcases zeroRuns_cons_zero groups i with ⟨hnew, hfront⟩ | ⟨len, runs, hruns, hjoin⟩
        · rw [hnew]
          exact hrest.cons_new hfront
        · rw [hjoin]
          exact (hruns ▸ hrest).cons_join
      · rw [zeroRuns_cons_pos hg]
        exact hrest.cons_pos hg

/-- The run that is chosen of those listed: the longest of at least two, the leftmost of equals. -/
def Chooses (runs : List (Nat × Nat)) : Option (Nat × Nat) → Prop
  | none => ∀ r ∈ runs, r.2 < 2
  | some b => b ∈ runs ∧ 2 ≤ b.2 ∧ ∀ r ∈ runs, r.2 ≤ b.2 ∧ (r.2 = b.2 → b.1 ≤ r.1)

/-- `len >= 2 && best.is_none_or(|(_, best_len)| len > best_len)`, and what `best` is then. -/
def takeRun (best : Option (Nat × Nat)) (run : Nat × Nat) : Option (Nat × Nat) :=
  if 2 ≤ run.2 ∧ best.all (fun b => b.2 < run.2) then some run else best

theorem bestRun_eq_foldl (runs : List (Nat × Nat)) : bestRun runs = runs.foldl takeRun none := by
  rw [bestRun]
  congr 1
  funext best run
  rw [takeRun]
  cases best with
  | none => simp
  | some b => by_cases htwo : 2 ≤ run.2 <;> simp [htwo]

/-- One run more, which stands behind those looked at. -/
theorem Chooses.takeRun {best : Option (Nat × Nat)} {run : Nat × Nat} (h : Chooses runs best)
    (hlast : ∀ r ∈ runs, r.1 < run.1) : Chooses (runs ++ [run]) (takeRun best run) := by
  rw [View.takeRun]
  split
  · -- the run is the first of its length or longer than the best
    rename_i hlonger
    refine ⟨List.mem_append_right _ List.mem_cons_self, hlonger.1, ?_⟩
    intro r hr
    rcases List.mem_append.1 hr with hr | hr
    · have hlt : r.2 < run.2 := by
        cases best with
        | none => exact Nat.lt_of_lt_of_le (h r hr) hlonger.1
        | some b => exact Nat.lt_of_le_of_lt (h.2.2 r hr).1 (of_decide_eq_true hlonger.2)
      exact ⟨Nat.le_of_lt hlt, fun heq => absurd heq (Nat.ne_of_lt hlt)⟩
    · rw [List.mem_singleton.1 hr]
      exact ⟨Nat.le_refl _, fun _ => Nat.le_refl _⟩
  · rename_i hshorter
    cases best with
    | none =>
        have hshort : run.2 < 2 := Nat.lt_of_not_le fun htwo => hshorter ⟨htwo, rfl⟩
        intro r hr
        rcases List.mem_append.1 hr with hr | hr
        · exact h r hr
        · rwa [List.mem_singleton.1 hr]
    | some b =>
        obtain ⟨hb, htwo, hall⟩ := h
        have hle : run.2 ≤ b.2 := by
          refine Nat.le_of_not_lt fun hlt => hshorter ⟨?_, decide_eq_true hlt⟩
          omega
        refine ⟨List.mem_append_left _ hb, htwo, ?_⟩
        intro r hr
        rcases List.mem_append.1 hr with hr | hr
        · exact hall r hr
        · rw [List.mem_singleton.1 hr]
          exact ⟨hle, fun _ => Nat.le_of_lt (hlast b hb)⟩

theorem chooses_bestRun (h : runs.Pairwise fun r s => r.1 < s.1) : Chooses runs (bestRun runs) := by
  rw [bestRun_eq_foldl]
  induction runs using List.reverseRecOn with
  | nil => exact fun r hr => absurd hr List.not_mem_nil
  | append_singleton runs run ih =>
      obtain ⟨hruns, -, hlast⟩ := List.pairwise_append.1 h
      rw [List.foldl_append, List.foldl_cons, List.foldl_nil]
      exact (ih hruns).takeRun fun r hr => hlast r hr run List.mem_cons_self

/-- The run found is the one to leave out. -/
theorem chosenRun_of_bestRun (h : bestRun (zeroRuns groups 0) = some (start, len)) : ChosenRun groups start len := by
  have hlists := listsRuns_zeroRuns groups 0
  have hchooses := chooses_bestRun hlists.ordered
  rw [h] at hchooses
  obtain ⟨hmem, htwo, hbest⟩ := hchooses
  constructor
  · have hzero := hlists.zero _ hmem
    rwa [Nat.sub_zero] at hzero
  · exact htwo
  · intro start' len' hrun
    by_contra hlonger
    obtain ⟨r, hr, hle, hend⟩ := hlists.all start' len' hrun (by omega)
    have := (hbest r hr).1
    dsimp only at this
    omega
  · intro start' hrun
    obtain ⟨r, hr, hle, hend⟩ := hlists.all start' len hrun (Nat.le_trans (by decide) htwo)
    obtain ⟨hlen, hleft⟩ := hbest r hr
    dsimp only at hlen hleft
    have := hleft (by omega)
    omega

/-- Where none is found, there is none to leave out. -/
theorem short_of_bestRun (h : bestRun (zeroRuns groups 0) = none) (hrun : ZeroRun groups start len) : len < 2 := by
  have hlists := listsRuns_zeroRuns groups 0
  have hchooses := chooses_bestRun hlists.ordered
  rw [h] at hchooses
  by_contra hlong
  obtain ⟨r, hr, hle, hend⟩ := hlists.all start len hrun (by omega)
  have := hchooses r hr
  omega

/-! ## The search as a loop -/

/-- The turns of the `while` that are left at group `i`. -/
def searchRun : List Nat → Nat → Option (Nat × Nat) → Option (Nat × Nat)
  | [], _, best => best
  | g :: rest, i, best =>
      if g = 0 then
        let len := (rest.takeWhile (· = 0)).length + 1
        searchRun (rest.dropWhile (· = 0)) (i + len) (takeRun best (i, len))
      else searchRun rest (i + 1) best
termination_by groups => groups.length
decreasing_by
  · exact Nat.lt_succ_of_le (List.length_dropWhile_le _ _)
  · exact Nat.lt_succ_self _

/-- Zeros in front of no other zero are one run. -/
theorem zeroRuns_zeros (n i : Nat) {rest : List Nat} (hrest : ∀ g ∈ rest.head?, g ≠ 0) :
    zeroRuns (List.replicate (n + 1) 0 ++ rest) i = (i, n + 1) :: zeroRuns rest (i + (n + 1)) := by
  induction n generalizing i with
  | zero =>
      rcases zeroRuns_cons_zero rest i with ⟨hnew, -⟩ | ⟨len, runs, hruns, -⟩
      · exact hnew
      · -- no run begins behind the zero
        exfalso
        cases rest with
        | nil => cases hruns
        | cons g rest =>
            rw [zeroRuns_cons_pos (hrest g rfl)] at hruns
            have hmem : (i + 1, len) ∈ zeroRuns rest (i + 1 + 1) := by
              rw [hruns]
              exact List.mem_cons_self
            have hstart := (listsRuns_zeroRuns rest (i + 1 + 1)).start_le (i + 1, len) hmem
            dsimp only at hstart
            omega
  | succ n ih =>
      have hbehind := ih (i + 1)
      rw [List.replicate_succ, List.cons_append]
      rcases zeroRuns_cons_zero (List.replicate (n + 1) 0 ++ rest) i with ⟨-, hhead⟩ | ⟨len, runs, hruns, hjoin⟩
      · rw [hbehind] at hhead
        exact absurd rfl (hhead _ rfl)
      · rw [hbehind] at hruns
        obtain ⟨hfirst, rfl⟩ := List.cons.inj hruns
        obtain ⟨-, rfl⟩ := Prod.mk.inj hfirst
        rw [hjoin]
        congr 2
        omega

/-- The loop finds the best of the runs. -/
theorem searchRun_eq (groups : List Nat) (i : Nat) (best : Option (Nat × Nat)) :
    searchRun groups i best = (zeroRuns groups i).foldl takeRun best := by
  induction groups, i, best using searchRun.induct with
  | case1 i best => rw [searchRun]; rfl
  | case2 rest i best len ih =>
      have hsplit : 0 :: rest = List.replicate len 0 ++ rest.dropWhile (· = 0) := by
        have hzeros : rest.takeWhile (· = 0) = List.replicate (rest.takeWhile (· = 0)).length 0 :=
          List.eq_replicate_iff.2 ⟨rfl, fun g hg => by simpa using List.mem_takeWhile_imp hg⟩
        rw [List.replicate_succ, List.cons_append, ← hzeros, List.takeWhile_append_dropWhile]
      have hrest : ∀ g ∈ (rest.dropWhile (· = 0)).head?, g ≠ 0 := by
        intro g hg
        have hnot := List.head?_dropWhile_not (fun g : Nat => decide (g = 0)) rest
        rw [Option.mem_def.1 hg] at hnot
        exact of_decide_eq_false hnot
      rw [searchRun, if_pos rfl]
      dsimp only
      rw [hsplit, zeroRuns_zeros _ i hrest, List.foldl_cons]
      exact ih
  | case3 g rest i best hg ih => rw [searchRun, if_neg hg, zeroRuns_cons_pos hg, ih]

/-- What the loop finds in the groups. -/
theorem bestRun_zeroRuns (groups : List Nat) : bestRun (zeroRuns groups 0) = searchRun groups 0 none := by
  rw [searchRun_eq, bestRun_eq_foldl]

end Runs

/-! ## Texts -/

theorem toList_join (sep : String) (parts : List String) :
    (join sep parts).toList = sep.toList.intercalate (parts.map String.toList) := by
  induction parts with
  | nil => rfl
  | cons part parts ih =>
      cases parts with
      | nil => rw [join, List.map_singleton, List.intercalate_singleton]
      | cons next parts =>
          rw [List.map_cons, List.map_cons, List.intercalate_cons_cons, ← List.map_cons, ← ih, join,
            String.toList_append, String.toList_append]
          exact List.cons_ne_nil _ _

theorem toList_hexStr_one (n : Nat) : (hexStr 1 n).toList = Nat.toDigits 16 n := by
  have hpos : 1 - (Nat.toDigits 16 n).length = 0 := Nat.sub_eq_zero_of_le Nat.length_toDigits_pos
  rw [hexStr, String.toList_ofList, hpos, List.replicate_zero, List.nil_append]

/-- Each group is written as recommended. -/
theorem forall₂_hexStr {groups : List Nat} (h : ∀ g ∈ groups, g < 65536) :
    List.Forall₂ GroupText groups ((groups.map (hexStr 1)).map String.toList) := by
  induction groups with
  | nil => exact .nil
  | cons g groups ih =>
      obtain ⟨hg, hgroups⟩ := List.forall_mem_cons.1 h
      rw [List.map_cons, List.map_cons, toList_hexStr_one]
      exact .cons (groupText_toDigits hg) (ih hgroups)

theorem forall₂_toString (octets : List UInt8) :
    List.Forall₂ OctetText octets ((octets.map fun x => toString x.toNat).map String.toList) := by
  induction octets with
  | nil => exact .nil
  | cons x octets ih =>
      have htext : (toString x.toNat).toList = Nat.toDigits 10 x.toNat := Nat.toList_repr
      rw [List.map_cons, List.map_cons, htext]
      exact .cons (octetText_toDigits x) ih

/-! ## Addresses -/

section Addresses

variable {b : List UInt8}

theorem ipv6Groups_eq (h : b.length = 16) : ipv6Groups b = groupsOf b := by
  match b, h with
  | [b0, b1, b2, b3, b4, b5, b6, b7, b8, b9, b10, b11, b12, b13, b14, b15], _ =>
      simp [ipv6Groups, groupsOf, List.range_succ, Nat.mul_comm]

theorem groupsOf_lt (b : List UInt8) : ∀ g ∈ groupsOf b, g < 65536 := by
  induction b using groupsOf.induct with
  | case1 hi lo rest ih =>
      have hhi := hi.toNat_lt
      have hlo := lo.toNat_lt
      rw [groupsOf]
      exact List.forall_mem_cons.2 ⟨by omega, ih⟩
  | case2 b hb =>
      rw [groupsOf]
      · exact fun g hg => absurd hg List.not_mem_nil
      · exact hb

theorem word_eq_iff {hi lo x y : UInt8} : 256 * hi.toNat + lo.toNat = 256 * x.toNat + y.toNat ↔ hi = x ∧ lo = y := by
  have hlo := lo.toNat_lt
  have hy := y.toNat_lt
  rw [← UInt8.toNat_inj, ← UInt8.toNat_inj]
  omega

theorem mapped_iff (h : b.length = 16) :
    ((groupsOf b).take 5 = [0, 0, 0, 0, 0] ∧ (groupsOf b).getD 5 0 = 0xffff) ↔ Mapped b := by
  match b, h with
  | [b0, b1, b2, b3, b4, b5, b6, b7, b8, b9, b10, b11, b12, b13, b14, b15], _ =>
      have hzero : ∀ hi lo : UInt8, 256 * hi.toNat + lo.toNat = 0 ↔ hi = 0 ∧ lo = 0 := fun hi lo =>
        word_eq_iff (x := 0) (y := 0)
      have hones : ∀ hi lo : UInt8, 256 * hi.toNat + lo.toNat = 65535 ↔ hi = 255 ∧ lo = 255 := fun hi lo =>
        word_eq_iff (x := 255) (y := 255)
      simp only [groupsOf, Mapped, List.take_succ_cons, List.take_zero, List.cons.injEq, List.getD_cons_succ,
        List.getD_cons_zero, hzero, hones, List.replicate_succ, List.replicate_zero, List.cons_append,
        List.nil_append, and_true, and_assoc]

/-- The text written is the recommended one. -/
theorem recommended_ipv6CompressedStr (h : b.length = 16) : Recommended b (ipv6CompressedStr b).toList := by
  rw [ipv6CompressedStr]
  rw [ipv6Groups_eq h]
  have hlt := groupsOf_lt b
  by_cases hmapped : Mapped b
  · rw [if_pos ((mapped_iff h).2 hmapped), String.toList_append, toList_join]
    exact .quad hmapped (forall₂_toString _)
  · rw [if_neg fun hgroups => hmapped ((mapped_iff h).1 hgroups)]
    cases hbest : bestRun (zeroRuns (groupsOf b) 0) with
    | none =>
        dsimp only
        rw [toList_join]
        exact .full hmapped (fun _ _ => short_of_bestRun hbest) (forall₂_hexStr hlt)
    | some run =>
        obtain ⟨start, len⟩ := run
        dsimp only
        rw [String.toList_append, String.toList_append, toList_join, toList_join, List.append_assoc]
        exact .gap hmapped (chosenRun_of_bestRun hbest) (forall₂_hexStr fun g hg => hlt g (List.mem_of_mem_take hg))
          (forall₂_hexStr fun g hg => hlt g (List.mem_of_mem_drop hg))

theorem read_ipv6CompressedStr (h : b.length = 16) : read (ipv6CompressedStr b).toList = some b :=
  read_of_recommended h (recommended_ipv6CompressedStr h)

end Addresses

/-! ## Different addresses -/

/-- The bytes of an IPv6 address. -/
def Ipv6Address : Type := {b : List UInt8 // b.length = 16}

/-- The bytes of an IPv4 or IPv6 address. -/
def Address : Type := {b : List UInt8 // b.length = 4 ∨ b.length = 16}

section Different

variable {b c : List UInt8} {name : FieldName}

theorem readEither_quad (h : b.length = 4) :
    readEither (join "." (b.map fun x => toString x.toNat)).toList = some b := by
  match b, h with
  | [w, x, y, z], _ =>
      obtain ⟨hquad, hdot, hcolon⟩ := readQuad_intercalate (forall₂_toString [w, x, y, z])
      rw [toList_join]
      change readEither (['.'].intercalate _) = _
      rw [readEither, read_quad hquad hdot hcolon, hquad, Option.none_or, Option.map_some]
      exact congrArg some (flatMap_groupBytes (b := [w, x, y, z]) (n := 2) rfl)

theorem readEither_ipv6CompressedStr (h : b.length = 16) :
    readEither (ipv6CompressedStr b).toList = some b := by
  rw [readEither, read_ipv6CompressedStr h, Option.some_or]

/-- Two digits tell a byte. -/
theorem digitsValue_hexStr_two (x : UInt8) : digitsValue hexValue 16 (hexStr 2 x.toNat).toList = some x.toNat := by
  have hvalues : ∀ d, d < 16 → hexValue d.digitChar = some d := by decide
  rw [hexStr, String.toList_ofList, digitsValue_zeros rfl, digitsValue_toDigits (by decide) hvalues]

theorem length_hexStr_two (x : UInt8) : (hexStr 2 x.toNat).toList.length = 2 := by
  have hle : (Nat.toDigits 16 x.toNat).length ≤ 2 := (Nat.length_toDigits_le_iff (by decide) (by decide)).2 x.toNat_lt
  rw [hexStr, String.toList_ofList, List.length_append, List.length_replicate]
  omega

theorem length_flatMap_hexStr (b : List UInt8) :
    (b.flatMap fun x => (hexStr 2 x.toNat).toList).length = 2 * b.length := by
  induction b with
  | nil => rfl
  | cons x b ih =>
      rw [List.flatMap_cons, List.length_append, length_hexStr_two, ih, List.length_cons]
      omega

theorem flatMap_hexStr_inj (h : (b.flatMap fun x => (hexStr 2 x.toNat).toList) =
    c.flatMap fun x => (hexStr 2 x.toNat).toList) : b = c := by
  have hlen : b.length = c.length := by
    have := congrArg List.length h
    rw [length_flatMap_hexStr, length_flatMap_hexStr] at this
    omega
  have hdelimits : ∀ x ∈ b, Delimits (fun _ => True) (fun x : UInt8 => (hexStr 2 x.toNat).toList) x := by
    intro x _ y _ s t heq
    obtain ⟨htext, hrest⟩ := List.append_inj heq ((length_hexStr_two x).trans (length_hexStr_two y).symm)
    dsimp only at htext
    have hvalue := digitsValue_hexStr_two x
    rw [htext, digitsValue_hexStr_two, Option.some_inj] at hvalue
    exact ⟨UInt8.toNat_inj.1 hvalue.symm, hrest⟩
  exact (flatMap_inj_of_delimits b c hdelimits (fun _ _ => trivial) hlen [] [] (by rw [h])).1

/-- Whatever the field is called, its addresses are shown as different texts. -/
theorem bytesStr_injective (name : FieldName) : Function.Injective fun a : Address => bytesStr name a.1 := by
  rintro ⟨b, hb⟩ ⟨c, hc⟩ h
  apply Subtype.ext
  dsimp only at h ⊢
  by_cases haddr : (endsWith name "_addr" || endsWith name "_ip") = true
  · have hreads : ∀ b : List UInt8, b.length = 4 ∨ b.length = 16 → readEither (bytesStr name b).toList = some b := by
      rintro b (hb | hb)
      · rw [bytesStr]
        rw [if_pos ⟨hb, haddr⟩, readEither_quad hb]
      · rw [bytesStr]
        rw [if_neg fun hfour => absurd (hb.symm.trans hfour.1) (by decide), if_pos ⟨hb, haddr⟩,
          readEither_ipv6CompressedStr hb]
    exact Option.some.inj ((hreads b hb).symm.trans (h ▸ hreads c hc))
  · have hhex : ∀ b : List UInt8, b.length = 4 ∨ b.length = 16 →
        (bytesStr name b).toList = b.flatMap fun x => (hexStr 2 x.toNat).toList := by
      intro b hb
      have hsix : b.length ≠ 6 := by omega
      have hshort : ¬32 < b.length := by omega
      rw [bytesStr]
      rw [if_neg fun hfour => haddr hfour.2, if_neg fun hsixteen => haddr hsixteen.2,
        if_neg fun hmac => hsix hmac.1]
      dsimp only
      rw [if_neg hshort, List.take_of_length_le (Nat.le_of_not_lt hshort), String.toList_join, List.flatMap_map]
    exact flatMap_hexStr_inj ((hhex b hb).symm.trans (h ▸ hhex c hc))

theorem fieldValueStr_bytes (fmt : Formats) (protocol : ProtocolName) (name : FieldName) (b : List UInt8) :
    fieldValueStr fmt protocol name (.bytes b) = bytesStr name b := by
  rw [fieldValueStr]
  · rfl
  · rintro bits - -
    exact Value.noConfusion

end Different

/-- The text of every IPv6 address is the recommended one, with a dotted quad for mapped addresses only, and is read as
the address; and no two addresses are shown alike in the sides of a tree, in the comparisons of queries or in JSON. -/
theorem ipv6CompressedStr_law :
    (∀ a : Ipv6Address, (∀ t, Recommended a.1 t ↔ t = (ipv6CompressedStr a.1).toList) ∧
      ('.' ∈ (ipv6CompressedStr a.1).toList ↔ Mapped a.1) ∧ read (ipv6CompressedStr a.1).toList = some a.1) ∧
    (∀ name suffix, Function.Injective fun a : Address => sideStr name suffix (.bytes a.1)) ∧
    ∀ fmt protocol name, Function.Injective (fun a : Address => fieldValueStr fmt protocol name (.bytes a.1)) ∧
      Function.Injective fun a : Address => fieldValueJson fmt protocol name (.bytes a.1) := by
  have hfield : ∀ fmt protocol name,
      Function.Injective fun a : Address => fieldValueStr fmt protocol name (.bytes a.1) := by
    intro fmt protocol name a a' h
    dsimp only at h
    rw [fieldValueStr_bytes, fieldValueStr_bytes] at h
    exact bytesStr_injective name h
  refine ⟨?_, ?_, ?_⟩
  · intro a
    have hform := recommended_ipv6CompressedStr a.2
    refine ⟨?_, dot_mem_iff a.2 hform, read_of_recommended a.2 hform⟩
    intro t
    constructor
    · exact fun ht => ht.unique hform
    · rintro rfl
      exact hform
  · intro name suffix a a' h
    dsimp only [sideStr, valueStr] at h
    apply bytesStr_injective name
    split at h
    · exact (String.append_right_inj _).1 h
    · exact h
  · intro fmt protocol name
    refine ⟨hfield fmt protocol name, ?_⟩
    intro a a' h
    dsimp only [fieldValueJson] at h
    exact hfield fmt protocol name (Json.str.inj h)

end Pktflow.View
