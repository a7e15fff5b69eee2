import Neonos.Fallible
import Neonos.Model.UserSyscalls
import Neonos.ProcessRuns

/-! Where a returning syscall resumes its process, against the ranges that the
handler holds the next trap to. -/
namespace Neonos.Lesson09
open Lesson10

namespace User08

def code (user : User08) : AddressRange := ⟨user.start, user.stop⟩

end User08

namespace User09

def main (user : User09) : AddressRange := ⟨user.start, user.stop⟩
def stress (user : User09) : AddressRange := ⟨user.stressStart, user.stressStop⟩

end User09

/-- What a kernel with these code ranges takes for user code. -/
def UserCode (ranges : List AddressRange) (pc : Word) : Prop := ∃ range ∈ ranges, range.Contains pc

instance (ranges : List AddressRange) (pc : Word) : Decidable (UserCode ranges pc) :=
  inferInstanceAs (Decidable (∃ range ∈ ranges, range.Contains pc))

/-- The range that a trap at `pc` is held to: the first that has it. -/
def home (ranges : List AddressRange) (pc : Word) : Option AddressRange :=
  ranges.find? fun range => range.Contains pc

/-- One of the three handlers answers a trap, with the ranges it takes for user
code in the order it asks them. Lesson 08 resumes whatever it answers. -/
inductive Answers (layout : Layout) : List AddressRange → TrapFrame → Word → TrapFrame → Prop where
  | lesson08 (handled : handleLesson08 layout user stvec address before = .ok after) :
      Answers layout [user.code] before ACTION_RESUME_USER after
  | lesson09 (handled : handleLesson09 layout user k address before = .ok (action, after, k')) :
      Answers layout [user.main, user.stress] before action after
  | lesson10 (handled : handle layout k address before = .ok (action, after, k')) :
      Answers layout [layout.api, k.active.code] before action after

variable {layout : Layout} {ranges : List AddressRange} {range : AddressRange} {before after : TrapFrame}

/-! ### What the handlers let in -/

theorem require_holds {condition : Prop} [Decidable condition] {cause : Panic}
    (passed : require condition cause = .ok u) : condition := by
  unfold require at passed
  by_contra fails
  rw [if_neg fails] at passed
  cases passed

theorem record_active {k k' : Lesson10.Kernel} (recorded : k.recordTrapFrame address = .ok k') :
    k'.active = k.active := by
  unfold Lesson10.Kernel.recordTrapFrame at recorded
  split at recorded
  · cases recorded
    rfl
  · split at recorded
    · cases recorded
    · cases recorded
      rfl

theorem new_range (made : AddressRange.new start stop = .ok range) : range = ⟨start, stop⟩ := by
  unfold AddressRange.new at made
  split at made
  · cases made
    rfl
  · cases made

theorem validateUserTrap_inside (valid : validateUserTrap layout stvec address frame start stop = .ok u) :
    (⟨start, stop⟩ : AddressRange).Contains frame.sepc := by
  unfold validateUserTrap at valid
  obtain ⟨triple, -, checked⟩ := bind_ok.mp valid
  dsimp only at checked
  split at checked
  · cases checked
  · rename_i evidence
    simp only [not_or, Bool.not_eq_true, Bool.not_eq_false', decide_eq_true_eq] at evidence
    exact evidence.2.2.2.2.2.1

theorem home_first (inside : range.Contains pc) : home (range :: ranges) pc = some range :=
  List.find?_cons_of_pos (decide_eq_true inside)

theorem home_later (outside : ¬ range.Contains pc) : home (range :: ranges) pc = home ranges pc :=
  List.find?_cons_of_neg fun inside => outside (of_decide_eq_true inside)

/-- The program a trap of lesson 09 is from is the first that has its `sepc`. -/
theorem codeAddresses_home {user : User09} (found : user.codeAddresses pc = .ok ends) :
    home [user.main, user.stress] pc = some ⟨ends.1, ends.2⟩ := by
  unfold User09.codeAddresses at found
  by_cases inMain : user.start ≤ pc ∧ pc < user.stop
  · rw [if_pos inMain] at found
    cases found
    exact home_first inMain
  · rw [if_neg inMain] at found
    by_cases inStress : user.stressStart ≤ pc ∧ pc < user.stressStop
    · rw [if_pos inStress] at found
      cases found
      have other : ¬ user.main.Contains pc := inMain
      exact (home_later other).trans (home_first inStress)
    · rw [if_neg inStress] at found
      cases found

/-- What the answer to a trap takes: a range that has its `sepc`, and for a
resume the end of that range in `apply_return`. -/
def Answered (ranges : List AddressRange) (before : TrapFrame) (action : Word) (after : TrapFrame) : Prop :=
  ∃ range, home ranges before.sepc = some range ∧
    (action = ACTION_RESUME_USER → ∃ result, applyReturn before result range.stop = .ok after)

theorem handleLesson08_answered {user : User08}
    (handled : handleLesson08 layout user stvec address before = .ok after) :
    Answered [user.code] before ACTION_RESUME_USER after := by
  unfold handleLesson08 at handled
  obtain ⟨_, valid, answered⟩ := bind_ok.mp handled
  have inside : user.code.Contains before.sepc := validateUserTrap_inside valid
  refine ⟨user.code, home_first inside, fun _ => ?_⟩
  split at answered
  · cases outcome : Syscall.dispatch (before.x 17) (before.x 10) with
    | ret result =>
      rw [outcome] at answered
      exact ⟨result, mapError_ok.mp answered⟩
    | exit code =>
      rw [outcome] at answered
      cases answered
  · cases answered

theorem handleLesson09_answered {user : User09} {k k' : Kernel}
    (handled : handleLesson09 layout user k address before = .ok (action, after, k')) :
    Answered [user.main, user.stress] before action after := by
  unfold handleLesson09 at handled
  obtain ⟨ends, found, handled⟩ := bind_ok.mp handled
  obtain ⟨_, -, handled⟩ := bind_ok.mp handled
  obtain ⟨_, -, answered⟩ := bind_ok.mp handled
  refine ⟨⟨ends.1, ends.2⟩, codeAddresses_home found, fun resumes => ?_⟩
  cases known : user.ecallKind before.sepc with
  | none =>
    rw [known] at answered
    cases answered
  | some kind =>
    rw [known] at answered
    dsimp only at answered
    cases outcome : Syscall.dispatch (before.x 17) (before.x 10) with
    | ret result =>
      rw [outcome] at answered
      obtain ⟨frame, applied, answered⟩ := bind_ok.mp answered
      cases answered
      exact ⟨result, mapError_ok.mp applied⟩
    | exit code =>
      rw [outcome] at answered
      cases answered
      exact absurd resumes (by decide)

theorem handle_answered {k k' : Lesson10.Kernel}
    (handled : handle layout k address before = .ok (action, after, k')) :
    Answered [layout.api, k.active.code] before action after := by
  unfold handle at handled
  obtain ⟨_, -, handled⟩ := bind_ok.mp handled
  obtain ⟨_, -, handled⟩ := bind_ok.mp handled
  obtain ⟨_, -, handled⟩ := bind_ok.mp handled
  obtain ⟨_, recorded, handled⟩ := bind_ok.mp handled
  obtain ⟨_, -, handled⟩ := bind_ok.mp handled
  obtain ⟨_, -, handled⟩ := bind_ok.mp handled
  obtain ⟨_, -, handled⟩ := bind_ok.mp handled
  obtain ⟨api, made, handled⟩ := bind_ok.mp handled
  obtain ⟨_, passed, answered⟩ := bind_ok.mp handled
  rw [record_active recorded] at passed answered
  have inside := require_holds passed
  obtain rfl : api = layout.api := new_range made
  -- the API is asked first, so its end is the bound where the two ranges meet
  obtain ⟨range, here, stop⟩ : ∃ range, home [layout.api, k.active.code] before.sepc = some range ∧
      (if layout.api.Contains before.sepc then layout.api.stop else k.active.code.stop) = range.stop := by
    by_cases inApi : layout.api.Contains before.sepc
    · exact ⟨layout.api, home_first inApi, if_pos inApi⟩
    · have inCode := inside.resolve_right inApi
      exact ⟨k.active.code, (home_later inApi).trans (home_first inCode), if_neg inApi⟩
  refine ⟨range, here, fun resumes => ?_⟩
  split at answered
  · cases outcome : Syscall.dispatch (before.x 17) (before.x 10) with
    | ret result =>
      rw [outcome] at answered
      dsimp only at answered
      rw [stop] at answered
      obtain ⟨frame, applied, answered⟩ := bind_ok.mp answered
      cases answered
      exact ⟨result, applied⟩
    | exit code =>
      rw [outcome] at answered
      cases answered
      exact absurd resumes (by decide)
  · split at answered
    · cases answered
      exact absurd resumes (by decide)
    · cases answered

theorem Answers.answered (answers : Answers layout ranges before action after) :
    Answered ranges before action after := by
  cases answers with
  | lesson08 handled => exact handleLesson08_answered handled
  | lesson09 handled => exact handleLesson09_answered handled
  | lesson10 handled => exact handle_answered handled

/-! ### The resume address -/

theorem home_contains (here : home ranges pc = some range) : range ∈ ranges ∧ range.Contains pc := by
  have found := List.find?_some here
  exact ⟨List.mem_of_find?_eq_some here, of_decide_eq_true found⟩

/-- No handler answers a trap from outside what it takes for user code. -/
theorem outside_refused (outside : ¬ UserCode ranges before.sepc) : ¬ Answers layout ranges before action after := by
  intro answers
  obtain ⟨range, here, -⟩ := answers.answered
  exact outside ⟨range, home_contains here⟩

/-- The check of `apply_return` lets the end of the range through. -/
theorem applyReturn_bound (applied : applyReturn before result stop = .ok after) :
    after.sepc.toNat ≤ stop.toNat := by
  unfold applyReturn at applied
  obtain ⟨-, -, applied⟩ := bind_ok.mp applied
  obtain ⟨_, below, applied⟩ := bind_ok.mp applied
  have below := require_holds below
  cases applied
  exact below

/-- Where a syscall of a process returns to. In every lesson, whatever the
ranges, the syscall and its argument, the resumed `sepc` is inside the range of
the trap exactly when the `ecall` does not end it, and is user code exactly when
the `ecall` does not end its range or another range goes on from there. -/
theorem resumed_inside_iff (resumes : Answers layout ranges before ACTION_RESUME_USER after) :
    ∃ range, home ranges before.sepc = some range ∧
      (range.Contains after.sepc ↔ before.sepc.toNat + 4 < range.stop.toNat) ∧
      (UserCode ranges after.sepc ↔
        before.sepc.toNat + 4 < range.stop.toNat ∨ UserCode ranges range.stop) := by
  obtain ⟨range, here, applies⟩ := resumes.answered
  obtain ⟨result, applied⟩ := applies rfl
  obtain ⟨member, inside⟩ := home_contains here
  have next := (applyReturn_resumed applied).sepc
  have bound := applyReturn_bound applied
  have within : range.Contains after.sepc ↔ before.sepc.toNat + 4 < range.stop.toNat := by
    have low := inside.1
    rw [BitVec.le_def] at low
    unfold AddressRange.Contains
    rw [BitVec.le_def, BitVec.lt_def, next]
    omega
  refine ⟨range, here, within, fun user => ?_, fun either => ?_⟩
  · by_cases short : before.sepc.toNat + 4 < range.stop.toNat
    · exact .inl short
    · have end_ : after.sepc = range.stop := BitVec.eq_of_toNat_eq (by omega)
      exact .inr (end_ ▸ user)
  · by_cases short : before.sepc.toNat + 4 < range.stop.toNat
    · exact ⟨range, member, within.mpr short⟩
    · have end_ : after.sepc = range.stop := BitVec.eq_of_toNat_eq (by omega)
      exact end_ ▸ either.resolve_left short

/-! ### An `ecall` at the end of its range -/

/-- A trap at `0x80004004`, the last instruction of the programs below. -/
def edgeTrap : TrapFrame := (lessonTrap 8 0x80004004 1 75).frame.setX 2 0x80013ff0

def edge08 : User08 := ⟨0x80004000, 0x80004008, 0x80004000, 0x80004000, 0x80004000, 0x80004004, 0x80004000⟩
def edge09 : User09 := ⟨0x80004000, 0x80004008, 0x80004004, 0x80004000, 0x80004100, 0x80004200, 0x80004100⟩
def edge10 : Lesson10.Kernel := ⟨⟨⟨0x80004000, 0x80004008⟩, none⟩, 0, 0x80000100⟩

/-- The frame that each handler leaves, at the end of the program. -/
def edgeResumed : TrapFrame := { edgeTrap.setX 10 0 with sepc := 0x80004008 }

theorem edge_answers : Answers lessonLayout [edge08.code] edgeTrap ACTION_RESUME_USER edgeResumed ∧
    Answers lessonLayout [edge09.main, edge09.stress] edgeTrap ACTION_RESUME_USER edgeResumed ∧
    Answers lessonLayout [lessonLayout.api, edge10.active.code] edgeTrap ACTION_RESUME_USER edgeResumed := by
  have eight : handleLesson08 lessonLayout edge08 0x80000100 0x80017ee0 edgeTrap = .ok edgeResumed := rfl
  have nine : handleLesson09 lessonLayout edge09 ⟨0, 0, 0x80000100⟩ 0x80017ee0 edgeTrap =
      .ok (ACTION_RESUME_USER, edgeResumed, ⟨0, 0x80017ee0, 0x80000100⟩) := rfl
  have ten : handle lessonLayout edge10 0x80017ee0 edgeTrap =
      .ok (ACTION_RESUME_USER, edgeResumed, { edge10 with expectedTrapFrame := 0x80017ee0 }) := rfl
  exact ⟨.lesson08 eight, .lesson09 nine, .lesson10 ten⟩

/-- All three resume the process at an address they take no trap from. -/
theorem last_ecall_escapes :
    (Answers lessonLayout [edge08.code] edgeTrap ACTION_RESUME_USER edgeResumed ∧
      ¬ UserCode [edge08.code] edgeResumed.sepc) ∧
    (Answers lessonLayout [edge09.main, edge09.stress] edgeTrap ACTION_RESUME_USER edgeResumed ∧
      ¬ UserCode [edge09.main, edge09.stress] edgeResumed.sepc) ∧
    Answers lessonLayout [lessonLayout.api, edge10.active.code] edgeTrap ACTION_RESUME_USER edgeResumed ∧
      ¬ UserCode [lessonLayout.api, edge10.active.code] edgeResumed.sepc := by
  obtain ⟨eight, nine, ten⟩ := edge_answers
  exact ⟨⟨eight, by decide⟩, ⟨nine, by decide⟩, ten, by decide⟩

theorem resumed_inside_iff_edge : ∃ range, home [edge08.code] edgeTrap.sepc = some range ∧
    (range.Contains edgeResumed.sepc ↔ edgeTrap.sepc.toNat + 4 < range.stop.toNat) ∧
    (UserCode [edge08.code] edgeResumed.sepc ↔
      edgeTrap.sepc.toNat + 4 < range.stop.toNat ∨ UserCode [edge08.code] range.stop) :=
  resumed_inside_iff edge_answers.1

end Neonos.Lesson09
