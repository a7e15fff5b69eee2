import Neonos.Model.UserScheduler
import Neonos.Model.UserSyscalls
import Neonos.Rv64Linked

/-! The user programs of lessons 08 to 10: `.text.user` of `user.S` without the
program of lesson 07, `user10.S` and `user_api.S`, and the machine that runs
them at the addresses they are linked at. -/
namespace Neonos.UserPrograms
open Rv64.Reg Rv64Linked ByteMemory Scheduler

/-- The labels of the three files. Local labels and places without one carry
the name of the block they are in. -/
inductive Label where
  | user08_entry
  | user08_ecall_unknown
  | user08_ecall_invalid
  | user08_ecall_o
  | user08_ecall_k
  | user08_ecall_newline
  | user08_done
  | user08_fail
  | user08_fail_loop
  | user09_entry
  | user09_ecall_invalid_exit
  | user09_ecall_exit7
  | user09_fail
  | user09_stress_entry
  | user09_stress_ecall
  | user09_stress_after_exit
  | user10_fault_instruction
  | user10_fault_after
  | user10_normal_entry
  | user10_normal_1
  | user10_normal_main
  | user10_failed
  | user_api_putchar
  | user_api_putchar_ecall
  | user_api_exit
  | user_api_exit_ecall
  deriving DecidableEq

abbrev Block := Label × List (Op Label)

/-! ### `user.S` -/

/-- The registers and the word on the stack are what they were, or `user08_fail`. -/
def user08_check : List (Op Label) :=
  [.li t0 0x2222333344445555, .bne s2 t0 .user08_fail,
    .li t0 0x6666777788889999, .bne s3 t0 .user08_fail,
    .ld t1 0 sp,
    .li t0 0x1122334455667788, .bne t1 t0 .user08_fail]

def user08 : List Block :=
  [(.user08_entry,
      [.li s2 0x2222333344445555, .li s3 0x6666777788889999, .li t1 0x1122334455667788, .sd t1 0 sp,
        .li a7 999, .li a0 0]),
    (.user08_ecall_unknown,
      [.ecall, .li t0 (-1), .bne a0 t0 .user08_fail, .li a7 1, .li a0 256]),
    (.user08_ecall_invalid,
      [.ecall, .li t0 (-2), .bne a0 t0 .user08_fail] ++ user08_check ++ [.li a7 1, .li a0 79]),
    (.user08_ecall_o, [.ecall, .bnez a0 .user08_fail, .li a7 1, .li a0 75]),
    (.user08_ecall_k, [.ecall, .bnez a0 .user08_fail, .li a7 1, .li a0 10]),
    (.user08_ecall_newline, [.ecall, .bnez a0 .user08_fail] ++ user08_check),
    (.user08_done, [.j .user08_done]),
    (.user08_fail, [.li a7 1, .li a0 70, .ecall]),
    (.user08_fail_loop, [.j .user08_fail_loop])]

/-- `li a7, 1`, `li a0, ..` and the `ecall`, for each of these characters. -/
def putchars (characters : List Int) : List (Op Label) :=
  characters.flatMap fun c => [.li a7 1, .li a0 c, .ecall]

def user09 : List Block :=
  [(.user09_entry, [.li a7 2, .li a0 256]),
    (.user09_ecall_invalid_exit, [.ecall, .li t0 (-2), .bne a0 t0 .user09_fail, .li a7 2, .li a0 7]),
    -- BAD_AFTER_EXIT
    (.user09_ecall_exit7, [.ecall] ++ putchars [66, 65, 68, 95, 65, 70, 84, 69, 82, 95, 69, 88, 73, 84, 10]),
    (.user09_fail, [.j .user09_fail])]

def user09_stress : List Block :=
  [(.user09_stress_entry, [.li a7 2, .li a0 0]),
    (.user09_stress_ecall, [.ecall]),
    (.user09_stress_after_exit, [.j .user09_stress_after_exit])]

/-! ### `user10.S` -/

def user10_fault : List Block :=
  [(.user10_fault_instruction, [.illegal]),
    (.user10_fault_after, [.j .user10_fault_after])]

/-- `li a0, ..` and `call user_api_putchar`, for each of these characters. -/
def api_putchars (characters : List Int) : List (Op Label) :=
  characters.flatMap fun c => [.li a0 c, .call .user_api_putchar]

/-- What `user10_normal_main` prints: `OK`, `AFTER_FAULT_OK`. -/
def OUTPUT : List Int := [79, 75, 10, 65, 70, 84, 69, 82, 95, 70, 65, 85, 76, 84, 95, 79, 75, 10]

def user10_normal : List Block :=
  [(.user10_normal_entry,
      -- BAD_EXIT_RETURN
      [.call .user10_normal_main, .call .user_api_exit] ++
        api_putchars [66, 65, 68, 95, 69, 88, 73, 84, 95, 82, 69, 84, 85, 82, 78, 10]),
    (.user10_normal_1, [.j .user10_normal_1]),
    (.user10_normal_main,
      [.addi sp sp (-16), .sd ra 8 sp,
        .li a7 999, .li a0 0, .ecall, .li t0 (-1), .bne a0 t0 .user10_failed,
        .li a0 256, .call .user_api_putchar, .li t0 (-2), .bne a0 t0 .user10_failed] ++
      api_putchars OUTPUT ++
      [.li a0 0, .ld ra 8 sp, .addi sp sp 16, .ret]),
    (.user10_failed, [.li a0 99, .call .user_api_exit, .j .user10_failed])]

/-! ### `user_api.S` -/

def user_api : List Block :=
  [(.user_api_putchar, [.li a7 1]),
    (.user_api_putchar_ecall, [.ecall, .ret]),
    (.user_api_exit, [.li a7 2]),
    (.user_api_exit_ecall, [.ecall, .ret])]

/-! ### The linked programs -/

/-- The code with the labels at the ends of the programs. -/
structure Image where
  code : Code Label
  user08_end : Word
  user09_end : Word
  user09_stress_end : Word
  user10_fault_end : Word
  user10_normal_end : Word
  user_api_end : Word

/-- Each program lies in one piece. An `ecall` is four bytes long and every
instruction begins at an even address, the programs at multiples of four. -/
structure Image.Linked (image : Image) : Prop where
  user08 : image.code.Holds user08 image.user08_end
  user09 : image.code.Holds user09 image.user09_end
  user09_stress : image.code.Holds user09_stress image.user09_stress_end
  user10_fault : image.code.Holds user10_fault image.user10_fault_end
  user10_normal : image.code.Holds user10_normal image.user10_normal_end
  user_api : image.code.Holds user_api image.user_api_end
  ecall : ∀ pc next, image.code.fetch pc = some (.ecall, next) → next = pc + 4
  even : ∀ pc op next, image.code.fetch pc = some (op, next) → next &&& ~~~1 = next
  aligned : ∀ l ∈ [Label.user08_entry, .user09_entry, .user09_stress_entry, .user10_fault_instruction,
    .user10_normal_entry], image.code.addr l &&& 1 = 0

/-- The hart in user mode over linked code; what other code does is left open. -/
def machine (code : Code Label) (elsewhere : Machine Memory) : Machine Memory := fun u =>
  match code.fetch u.pc with
  | none => elsewhere u
  | some (.plain .ecall, _) => .trap 8
  | some (.plain .illegal, _) => .trap 2
  | some (op, next) =>
    let s : Rv64User.Hart := ⟨u.x, u.zero, u.stack⟩
    let t := op.run code.addr next s
    .next ⟨t.x, t.zero, op.goes code.addr next s, t.mem⟩

end Neonos.UserPrograms
