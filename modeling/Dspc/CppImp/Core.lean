import Dspc.CppImp.Words

namespace Dspc.CppImp
open Cpp

variable {w : Nat}

def scheduleWord (M : Vector Sha256.Word 16) (t : Nat) : BitVec w :=
  widen (Sha256.expandWord Sha256.sigma0 Sha256.sigma1 (· + ·) M t)

def Vars.widen (v : Sha256.Working) : Vars w :=
  { a := Cpp.widen v.a, b := Cpp.widen v.b, c := Cpp.widen v.c, d := Cpp.widen v.d
    e := Cpp.widen v.e, f := Cpp.widen v.f, g := Cpp.widen v.g, h := Cpp.widen v.h }

section Wide

variable (wide : 32 ≤ w)
include wide

section Resize

variable {bytes : List (BitVec 8)} (size : bytes.length = 64)
include size

theorem resizeStep_eq (W_temp : Cells (BitVec w) 16) {t : Nat} (inside : t < 16) :
    resizeStep (bytes.map (·.setWidth w)) (4 * t) W_temp =
      W_temp.write t (scheduleWord (Sha256.blockWords (Sha256.blockOfBytes bytes)) t) := by
  have word := Sha256.blockWords_blockOfBytes size t inside
  have packed := pack_bytes wide bytes[4 * t] bytes[4 * t + 1] bytes[4 * t + 2] bytes[4 * t + 3]
  have index : 4 * t / 4 = t := by omega
  have read (k : Nat) (h : k < bytes.length) : (bytes.map (·.setWidth w))[k]? = some (bytes[k].setWidth w) := by
    rw [List.getElem?_map, List.getElem?_eq_getElem h, Option.map_some]
  simp only [resizeStep, read (4 * t) (by omega), read (4 * t + 1) (by omega), read (4 * t + 2) (by omega),
    read (4 * t + 3) (by omega), Option.bind_eq_bind, Option.bind_some, packed, index]
  rw [scheduleWord, Sha256.expandWord_block _ _ _ _ inside, word]
  rfl

theorem resize_spec : ∃ W_temp : Cells (BitVec w) 16, resize (bytes.map (·.setWidth w)) = some W_temp ∧
    ∀ t < 16, W_temp.read t = some (scheduleWord (Sha256.blockWords (Sha256.blockOfBytes bytes)) t) := by
  let start : Cells (BitVec w) 16 := .replicate 16 (some 0)
  let Inv (i : Nat) (W_temp : Cells (BitVec w) 16) : Prop := ∃ t, i = 4 * t ∧ t ≤ 16 ∧
    W_temp.FilledTo start (scheduleWord (Sha256.blockWords (Sha256.blockOfBytes bytes))) t
  have iterate (i : Nat) (W_temp : Cells (BitVec w) 16) (more : (i : Int) < 64) (inv : Inv i W_temp) :
      ∃ next, resizeStep (bytes.map (·.setWidth w)) i W_temp = some next ∧ Inv (i + 4) next := by
    obtain ⟨t, rfl, _, filled⟩ := inv
    obtain ⟨next, written, further⟩ := filled.write (by omega)
    exact ⟨next, by rw [resizeStep_eq wide size W_temp (by omega), written], t + 1, by omega, by omega, further⟩
  have first : Inv 0 start := ⟨0, rfl, by omega, .start start _⟩
  obtain ⟨j, last, run, exit, t, rfl, _, filled⟩ := forInt_rule iterate first (by decide)
  exact ⟨last, run, fun t inside => filled.done t (by omega)⟩

end Resize

section Schedule

variable {M : Vector Sha256.Word 16}

def Scheduled (M : Vector Sha256.Word 16) (first bound i : Nat) (W : Cells (BitVec w) 64) : Prop :=
  first ≤ i ∧ i ≤ bound ∧ W.FilledTo (.uninit 64) (scheduleWord M) i

omit wide in
theorem scheduled_none : Scheduled M 0 16 0 (.uninit 64 : Cells (BitVec w) 64) := ⟨le_rfl, by decide, .start _ _⟩

theorem copyStep_spec {W_temp : Cells (BitVec w) 16} (words : ∀ t < 16, W_temp.read t = some (scheduleWord M t))
    (i : Nat) (W : Cells (BitVec w) 64) (more : (i : Int) < 16) (inv : Scheduled M 0 16 i W) :
    ∃ next, copyStep W_temp i W = some next ∧ Scheduled M 0 16 (i + 1) next := by
  obtain ⟨_, _, filled⟩ := inv
  obtain ⟨next, written, further⟩ := filled.write (by omega)
  have clean : (scheduleWord M i : BitVec w) &&& mask = scheduleWord M i := by
    rw [mask, and_mask wide, scheduleWord, low_widen wide]
  refine ⟨next, ?_, by omega, by omega, further⟩
  rw [copyStep, words i (by omega), Option.bind_eq_bind, Option.bind_some, clean, written]

theorem low_scheduleSum {t : Nat} (late : 16 ≤ t) :
    low (sig1 (scheduleWord M (t - 2) : BitVec w) + scheduleWord M (t - 7) + sig0 (scheduleWord M (t - 15)) +
      scheduleWord M (t - 16)) = Sha256.expandWord Sha256.sigma0 Sha256.sigma1 (· + ·) M t := by
  simp only [scheduleWord, low_add wide, low_sig0 wide, low_sig1 wide, low_widen wide]
  rw [Sha256.expandWord_step _ _ _ _ late]

theorem scheduleStep_spec (i : Nat) (W : Cells (BitVec w) 64) (more : (i : Int) < 64)
    (inv : Scheduled M 16 64 i W) :
    ∃ next, scheduleStep i W = some next ∧ Scheduled M 16 64 (i + 1) next := by
  obtain ⟨late, _, filled⟩ := inv
  have sum := low_scheduleSum (M := M) wide late
  obtain ⟨unmasked, first, here, next, second, further⟩ := filled.scratch (by omega)
    (sig1 (scheduleWord M (i - 2)) + scheduleWord M (i - 7) + sig0 (scheduleWord M (i - 15)) +
      scheduleWord M (i - 16))
  refine ⟨next, ?_, by omega, by omega, further⟩
  simp only [scheduleStep, filled.done (i - 2) (by omega), filled.done (i - 7) (by omega),
    filled.done (i - 15) (by omega), filled.done (i - 16) (by omega), Option.bind_eq_bind, Option.bind_some,
    first, here, mask, and_mask wide, sum]
  exact second

end Schedule

section Rounds

/-- One iteration of the round loop on clean values is one round, in spite of the
bits above bit 31 that `T1` and `T2` carry. -/
theorem roundStep_eq {W : Cells (BitVec w) 64} {i : Nat} {y : Sha256.Word} (inside : i < 64)
    (here : W.read i = some (widen y)) (v : Sha256.Working) :
    roundStep W i (.widen v) = some (.widen (Sha256.round v Sha256.K[i] y)) := by
  have constant := low_Constant_k wide i inside
  rw [roundStep, Vector.getElem?_eq_getElem inside, here]
  simp only [Option.bind_eq_bind, Option.bind_some, mask, and_mask wide, low_add wide, low_Ch wide, low_Maj,
    low_ep0 wide, low_ep1 wide, low_widen wide, constant, Vars.widen, Sha256.round]

def Rounded (v : Sha256.Working) (S : Vector Sha256.Word 64) (i : Nat) (u : Vars w) : Prop :=
  ∃ h : i ≤ 64, u = .widen (Sha256.rounds v S i h)

variable {W : Cells (BitVec w) 64} {S : Vector Sha256.Word 64}
  (words : ∀ (t : Nat) (h : t < 64), W.read t = some (widen S[t])) (v : Sha256.Working)
include words

theorem roundStep_spec (i : Nat) (u : Vars w) (more : (i : Int) < 64) (inv : Rounded v S i u) :
    ∃ next, roundStep W i u = some next ∧ Rounded v S (i + 1) next := by
  obtain ⟨_, rfl⟩ := inv
  exact ⟨_, roundStep_eq wide (by omega) (words i (by omega)) _, by omega, rfl⟩

theorem rounds_spec : forInt 64 1 (roundStep W) 0 (.widen v) =
    some (.widen (Sha256.rounds v S 64 le_rfl)) := by
  have start : Rounded v S 0 (.widen v : Vars w) := ⟨by decide, rfl⟩
  obtain ⟨j, last, run, exit, _, rfl⟩ := forInt_rule (roundStep_spec wide words v) start
    (by decide)
  have done : j = 64 := by omega
  subst done
  exact run

end Rounds

omit wide in
theorem get_map_widen (H : Vector Sha256.Word 8) (i : Fin 8) :
    (H.map widen : Vector (BitVec w) 8).get i = widen H[i] := Vector.getElem_map widen i.isLt

theorem addH_eq (H : Vector Sha256.Word 8) (v : Sha256.Working) :
    addH (H.map widen : Vector (BitVec w) 8) (.widen v) = (Sha256.addWorking H v).map widen := by
  simp only [addH, Vars.widen, mask, and_mask wide, low_add wide, low_widen wide, get_map_widen,
    Sha256.addWorking, Vector.map_mk, List.map_toArray, List.map_cons, List.map_nil, BitVec.add_comm]
  rfl

omit wide in
theorem ofH_eq (H : Vector Sha256.Word 8) : Vars.ofH (H.map widen : Vector (BitVec w) 8) = .widen (.ofHash H) := by
  simp only [Vars.ofH, Vars.widen, Sha256.Working.ofHash, get_map_widen]
  rfl

end Wide

/-- The array `W_temp` of a run on the block `bytes`, and `W` between and after the two loops that fill it. -/
structure Stages (bytes : List (BitVec 8)) (M : Vector Sha256.Word 16) (W_temp : Cells (BitVec w) 16)
    (W₀ W : Cells (BitVec w) 64) : Prop where
  resized : resize (bytes.map (·.setWidth w)) = some W_temp
  block : ∀ t < 16, W_temp.read t = some (scheduleWord M t)
  copied : forInt 16 1 (copyStep W_temp) 0 (.uninit 64) = some W₀
  middle : Scheduled M 16 64 16 W₀
  extended : forInt 64 1 scheduleStep 16 W₀ = some W
  words : ∀ (t : Nat) (h : t < 64), W.read t = some (widen (Sha256.schedule M)[t])

section Wide

variable (wide : 32 ≤ w)
include wide

theorem stages_exist {bytes : List (BitVec 8)} (size : bytes.length = 64) :
    ∃ (W_temp : Cells (BitVec w) 16) (W₀ W : Cells (BitVec w) 64),
      Stages bytes (Sha256.blockWords (Sha256.blockOfBytes bytes)) W_temp W₀ W := by
  obtain ⟨W_temp, resized, block⟩ := resize_spec wide size
  obtain ⟨i, W₀, copied, exit, _, _, early⟩ := forInt_rule (copyStep_spec wide block) scheduled_none
    (by decide)
  have sixteen : i = 16 := by omega
  subst sixteen
  have middle : Scheduled _ 16 64 16 W₀ := ⟨le_rfl, by decide, early⟩
  obtain ⟨j, W, extended, done, _, _, all⟩ := forInt_rule (scheduleStep_spec wide) middle (by decide)
  have words (t : Nat) (h : t < 64) :
      W.read t = some (widen (Sha256.schedule (Sha256.blockWords (Sha256.blockOfBytes bytes)))[t]) := by
    rw [Sha256.getElem_schedule _ h]
    exact all.done t (by omega)
  exact ⟨W_temp, W₀, W, resized, block, copied, middle, extended, words⟩

/-- The resize, schedule, round and addition code is the compression function, at
every width of `unsigned long` from 32 on. -/
theorem Stages.core_eq {bytes : List (BitVec 8)} {M : Vector Sha256.Word 16} {W_temp : Cells (BitVec w) 16}
    {W₀ W : Cells (BitVec w) 64} (stages : Stages bytes M W_temp W₀ W) (H : Vector Sha256.Word 8) :
    core (H.map widen) (bytes.map (·.setWidth w)) = some (W, (Sha256.compress H (Sha256.schedule M)).map widen) := by
  have scheduled : schedule W_temp = some W := by
    rw [schedule, stages.copied, Option.bind_eq_bind, Option.bind_some, stages.extended]
  rw [core, stages.resized, Option.bind_eq_bind, Option.bind_some, scheduled, Option.bind_eq_bind,
    Option.bind_some, ofH_eq, rounds_spec wide stages.words, Option.bind_eq_bind, Option.bind_some, addH_eq wide]
  rfl

end Wide
end Dspc.CppImp
