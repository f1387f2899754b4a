import Xv6.Kern.Kill

/-!
# How much a read stores

`fileread(f, addr, n)` is to return at most `n` and to change user memory only
in `[addr, addr+n)`.  `InCall` describes the locations of a call: which
argument each of the four implementations still has, how far it has got, and
that a result is at most `n`.  It is closed under the flow graph, and every
`copyout` at one of its locations stays in the buffer.

`pipe_rt_read` does not look at `n`: it copies a whole task.  It stays in the
buffer when no more than `n` bytes of the task can be stored at `addr`.
-/

namespace Xv6

open Lib Sched

variable {addr dstva : Nat} {n r : Int} {pt : PageTable} {src : List UInt8}

/-- Memory changes only where the user sees the `n` bytes from `addr` on. -/
def ChangesOnly (pt : PageTable) (addr : Nat) (n : Int) (ram ram' : Ram) : Prop :=
  ∀ a, ram' a ≠ ram a → ∃ i : Nat, (i : Int) < n ∧ userByte pt ((addr + i) % 2 ^ 64) = some a

/-- The first `k` bytes from `dstva` on are in the buffer. -/
def InBuffer (addr : Nat) (n : Int) (dstva k : Nat) : Prop :=
  ∀ j < k, ∃ i : Nat, (i : Int) < n ∧ (dstva + j) % 2 ^ 64 = (addr + i) % 2 ^ 64

theorem InBuffer.mono {k k' : Nat} (h : InBuffer addr n dstva k) (hle : k' ≤ k) :
    InBuffer addr n dstva k' :=
  fun j hj => h j (Nat.lt_of_lt_of_le hj hle)

/-- A `copyout` that stores only in the buffer changes only the buffer. -/
theorem changesOnly_copyoutRam
    (h : InBuffer addr n dstva (storable pt dstva src.length)) (ram : Ram) :
    ChangesOnly pt addr n ram (copyoutRam pt ram dstva src).2 := by
  intro a hchange
  by_contra hnone
  apply hchange
  apply copyoutRam_of_not_stored
  intro j hj hbyte
  obtain ⟨i, hi, heq⟩ := h j hj
  have hlt : dstva + j < 2 ^ 64 := Nat.lt_trans (userByte_lt hbyte) (by decide)
  rw [Nat.mod_eq_of_lt hlt] at heq
  exact hnone ⟨i, hi, by rw [← heq, hbyte]⟩

namespace Pipe

/-- The locations of `piperead(pi, addr, n)`. -/
def InRead (addr : Nat) (n : Int) : Loc → Prop
  | .read a m i (.copyout _) => a = addr ∧ m = n ∧ (i : Int) < n
  | .read a m i _ => a = addr ∧ m = n ∧ (i : Int) ≤ n
  | .release r | .returned r => r ≤ n
  | _ => False

theorem inRead_closed (hn : 0 ≤ n) (pt : PageTable) : code.Closed pt (InRead addr n) := by
  intro loc next k d h hnext
  cases loc with
  | write | close => exact h.elim
  | release r =>
    cases hnext
    exact h
  | returned r => cases hnext
  | read a m i at_ =>
    cases at_ with
    | enter =>
      cases hnext
      exact h
    | wait =>
      obtain ⟨p, d', heq⟩ := hnext
      cases heq
      split <;> exact h
    | killed =>
      cases hnext
      dsimp only
      split
      · show (-1 : Int) ≤ n
        omega
      · exact h
    | sleep =>
      cases hnext
      exact h
    | loop =>
      obtain ⟨rfl, rfl, hi⟩ := h
      obtain ⟨p, d', heq⟩ := hnext
      simp only [Option.some.injEq] at heq
      split at heq
      · rename_i hlt
        cases heq
        exact ⟨rfl, rfl, hlt.1⟩
      · cases heq
        exact ⟨rfl, rfl, hi⟩
    | copyout ch =>
      obtain ⟨rfl, rfl, hi⟩ := h
      obtain ⟨ram, rfl⟩ := hnext
      dsimp only
      split
      · refine ⟨rfl, rfl, ?_⟩
        push_cast
        omega
      · exact ⟨rfl, rfl, Int.le_of_lt hi⟩
    | done =>
      cases hnext
      exact h.2.2

theorem InRead.copyout {loc : Loc} {next : Bool → Loc} (h : InRead addr n loc)
    (hi : code.instr loc = .copyout dstva src next) : InBuffer addr n dstva src.length := by
  cases loc with
  | write | close => exact h.elim
  | release | returned => cases hi
  | read a m i at_ =>
    cases at_ with
    | copyout ch =>
      obtain ⟨rfl, rfl, hlt⟩ := h
      cases hi
      intro j hj
      refine ⟨i, hlt, ?_⟩
      rw [List.length_singleton, Nat.lt_one_iff] at hj
      rw [hj, Nat.add_zero, Nat.mod_mod]
    | enter | wait | killed | sleep | loop | done => cases hi

theorem InRead.ret {loc : Loc} (h : InRead addr n loc) (hi : code.instr loc = .ret r) : r ≤ n := by
  cases loc with
  | write | close => exact h.elim
  | release r => cases hi
  | read a m i at_ => cases at_ <;> cases hi
  | returned r =>
    cases hi
    exact h

end Pipe

namespace PipeRt

/-- The locations of `pipe_rt_read(p, addr, n)`. -/
def InRead (addr : Nat) (n : Int) : Loc → Prop
  | .read a m _ => a = addr ∧ m = n
  | .release r | .returned r => r ≤ n
  | _ => False

theorem inRead_closed (hn : 0 ≤ n) (hstore : (storable pt addr 40 : Int) ≤ n) :
    code.Closed pt (InRead addr n) := by
  intro loc next k d h hnext
  cases loc with
  | write | close => exact h.elim
  | release r =>
    cases hnext
    exact h
  | returned r => cases hnext
  | read a m at_ =>
    cases at_ with
    | enter | sleep =>
      cases hnext
      exact h
    | test =>
      obtain ⟨p, d', heq⟩ := hnext
      cases heq
      split <;> exact h
    | remove =>
      obtain ⟨p, d', heq⟩ := hnext
      dsimp only at heq
      split at heq
      · cases heq
        show (-1 : Int) ≤ n
        omega
      split at heq
      · cases heq
      cases heq
      exact h
    | copyout task =>
      obtain ⟨rfl, rfl⟩ := h
      obtain ⟨ram, rfl⟩ := hnext
      show (if (copyoutRam pt ram a task.encode).1 then sizeofTask else -1) ≤ m
      split
      · -- all 40 bytes have been stored
        rename_i hok
        rw [copyoutRam_ok_iff, Task.encode_length] at hok
        rwa [hok] at hstore
      · omega

theorem InRead.copyout {loc : Loc} {next : Bool → Loc} (h : InRead addr n loc)
    (hi : code.instr loc = .copyout dstva src next) : dstva = addr ∧ src.length = 40 := by
  cases loc with
  | write | close => exact h.elim
  | release | returned => cases hi
  | read a m at_ =>
    cases at_ with
    | copyout task =>
      obtain ⟨rfl, rfl⟩ := h
      cases hi
      exact ⟨rfl, task.encode_length⟩
    | enter | test | sleep | remove => cases hi

theorem InRead.ret {loc : Loc} (h : InRead addr n loc) (hi : code.instr loc = .ret r) : r ≤ n := by
  cases loc with
  | write | close => exact h.elim
  | release r => cases hi
  | read a m at_ => cases at_ <;> cases hi
  | returned r =>
    cases hi
    exact h

end PipeRt

namespace Console

/-- The locations of `consoleread(1, addr, n)`. -/
def InRead (addr : Nat) (n : Int) : Loc → Prop
  | .read target dst m at_ => target = n ∧ m ≤ n ∧ dst % 2 ^ 64 = (addr + (n - m).toNat) % 2 ^ 64 ∧
      (if at_ = .enter ∨ at_ = .loop then 0 ≤ m else 0 < m)
  | .release r | .returned r => r ≤ n

theorem inRead_closed (hn : 0 ≤ n) (pt : PageTable) : code.Closed pt (InRead addr n) := by
  intro loc next k d h hnext
  cases loc with
  | release r =>
    cases hnext
    exact h
  | returned r => cases hnext
  | read target dst m at_ =>
    obtain ⟨rfl, hle, hdst, hm⟩ := h
    cases at_ with
    | enter | sleep =>
      cases hnext
      exact ⟨rfl, hle, hdst, hm⟩
    | loop =>
      obtain ⟨p, d', heq⟩ := hnext
      cases heq
      split
      · rename_i hpos
        exact ⟨rfl, hle, hdst, hpos⟩
      show target - m ≤ target
      have : 0 ≤ m := hm
      omega
    | wait =>
      obtain ⟨p, d', heq⟩ := hnext
      cases heq
      split <;> exact ⟨rfl, hle, hdst, hm⟩
    | killed =>
      cases hnext
      dsimp only
      split
      · show (-1 : Int) ≤ target
        omega
      · exact ⟨rfl, hle, hdst, hm⟩
    | fetch =>
      have hpos : 0 < m := hm
      obtain ⟨p, d', heq⟩ := hnext
      simp only [Option.some.injEq, Console.fetch] at heq
      split at heq
      · cases heq
        show target - m ≤ target
        omega
      · cases heq
        exact ⟨rfl, hle, hdst, hm⟩
    | copyout c =>
      have hpos : 0 < m := hm
      obtain ⟨ram, rfl⟩ := hnext
      dsimp only
      split
      · split
        · show target - (m - 1) ≤ target
          omega
        refine ⟨rfl, by omega, ?_, ?_⟩
        · have hnext : (target - (m - 1)).toNat = (target - m).toNat + 1 := by omega
          rw [hnext]
          omega
        · show 0 ≤ m - 1
          omega
      · show target - m ≤ target
        omega

theorem InRead.copyout {loc : Loc} {next : Bool → Loc} (h : InRead addr n loc)
    (hi : code.instr loc = .copyout dstva src next) : InBuffer addr n dstva src.length := by
  cases loc with
  | release | returned => cases hi
  | read target dst m at_ =>
    cases at_ with
    | copyout c =>
      obtain ⟨rfl, hle, hdst, hm⟩ := h
      have hpos : 0 < m := hm
      cases hi
      intro j hj
      refine ⟨(target - m).toNat, by omega, ?_⟩
      rw [List.length_singleton, Nat.lt_one_iff] at hj
      rw [hj, Nat.add_zero, hdst]
    | enter | loop | wait | killed | sleep | fetch => cases hi

theorem InRead.ret {loc : Loc} (h : InRead addr n loc) (hi : code.instr loc = .ret r) : r ≤ n := by
  cases loc with
  | release r => cases hi
  | read target dst m at_ => cases at_ <;> cases hi
  | returned r =>
    cases hi
    exact h

end Console

namespace Kern

/-- How far a `fileread` of an inode has got. -/
def FileAt.Bounded (n : Int) : FileAt → Prop
  | .enter => False
  | .ilock _ | .readi => True
  | .loop _ tot m => tot ≤ m ∧ (m : Int) ≤ n
  | .bmap _ tot m _ | .bread _ tot m _ => tot < m ∧ (m : Int) ≤ n
  | .copyout _ tot m bytes => tot + bytes.length ≤ m ∧ (m : Int) ≤ n
  | .advance r | .iunlock r _ => r ≤ n

/-- The locations of `fileread(f, addr, n)` after the switch on the type of
the file. -/
def InCall (pt : PageTable) (addr : Nat) (n : Int) : Loc → Prop
  | .pipe _ loc => Pipe.InRead addr n loc
  | .pipeRt _ loc => PipeRt.InRead addr n loc ∧ (storable pt addr 40 : Int) ≤ n
  | .cons loc => Console.InRead addr n loc
  | .fileread _ _ a m at_ => a = addr ∧ m = n ∧ at_.Bounded n
  | .returned r => r ≤ n
  | .ticks _ | .wait _ => False

variable {loc : Loc}

/-- A step of a program of the file system goes on with it, or ends it. -/
theorem fsStep_cases {α : Type} {prog : Fs.FsM α} {rest : Fs.FsM α → Loc} {done : α → Loc}
    {d d' : Data} (h : fsStep prog rest done d = some (d', loc)) :
    (∃ prog', loc = rest prog') ∨ ∃ a, loc = done a := by
  unfold fsStep at h
  split at h
  · cases h
    exact .inr ⟨_, rfl⟩
  · split at h
    · cases h
      exact .inl ⟨_, rfl⟩
    · cases h
    · cases h
  · cases h

variable {f : Fin NFILE}

theorem fileread_closed {ip : Nat} (hn : 0 ≤ n) {at_ : FileAt} {k : Bool}
    {d : Data} {next : Loc} (h : at_.Bounded n)
    (hnext : (fileread f ip addr n at_).Next k pt d next) : InCall pt addr n next := by
  cases at_ with
  | enter => exact h.elim
  | ilock rest =>
    obtain ⟨p, d', heq⟩ := hnext
    obtain ⟨rest', rfl⟩ | ⟨a, rfl⟩ := fsStep_cases heq <;> exact ⟨rfl, rfl, trivial⟩
  | readi =>
    obtain ⟨p, d', heq⟩ := hnext
    cases heq
    dsimp only
    split
    · exact ⟨rfl, rfl, hn⟩
    refine ⟨rfl, rfl, Nat.zero_le _, ?_⟩
    split <;> omega
  | loop off tot m =>
    obtain ⟨htot, hm⟩ := h
    obtain ⟨p, d', heq⟩ := hnext
    cases heq
    split
    · rename_i hlt
      exact ⟨rfl, rfl, hlt, hm⟩
    refine ⟨rfl, rfl, ?_⟩
    show (tot : Int) ≤ n
    omega
  | bmap off tot m rest =>
    obtain ⟨htot, hm⟩ := h
    obtain ⟨p, d', heq⟩ := hnext
    obtain ⟨rest', rfl⟩ | ⟨b, rfl⟩ := fsStep_cases heq
    · exact ⟨rfl, rfl, htot, hm⟩
    refine ⟨rfl, rfl, ?_⟩
    split
    · show (tot : Int) ≤ n
      omega
    · exact ⟨htot, hm⟩
  | bread off tot m b =>
    obtain ⟨htot, hm⟩ := h
    obtain ⟨p, d', heq⟩ := hnext
    cases heq
    refine ⟨rfl, rfl, ?_, hm⟩
    rw [Buf.read_length]
    omega
  | copyout off tot m bytes =>
    obtain ⟨htot, hm⟩ := h
    obtain ⟨ram, rfl⟩ := hnext
    refine ⟨rfl, rfl, ?_⟩
    split
    · exact ⟨htot, hm⟩
    show (-1 : Int) ≤ n
    omega
  | advance r =>
    obtain ⟨p, d', heq⟩ := hnext
    cases heq
    exact ⟨rfl, rfl, h⟩
  | iunlock r rest =>
    obtain ⟨p, d', heq⟩ := hnext
    obtain ⟨rest', rfl⟩ | ⟨a, rfl⟩ := fsStep_cases heq
    · exact ⟨rfl, rfl, h⟩
    · exact h

/-- A call stays at its locations. -/
theorem inCall_closed (hn : 0 ≤ n) (pt : PageTable) : code.Closed pt (InCall pt addr n) := by
  intro loc next k d h hnext
  cases loc with
  | pipe page loc =>
    simp only [code] at hnext
    obtain ⟨next, rfl, hn'⟩ := hnext.of_map
    exact Pipe.inRead_closed hn pt h hn'
  | pipeRt page loc =>
    simp only [code] at hnext
    obtain ⟨next, rfl, hn'⟩ := hnext.of_map
    exact ⟨PipeRt.inRead_closed hn h.2 h.1 hn', h.2⟩
  | cons loc =>
    simp only [code] at hnext
    obtain ⟨next, rfl, hn'⟩ := hnext.of_map
    exact Console.inRead_closed hn pt h hn'
  | fileread f ip a m at_ =>
    obtain ⟨rfl, rfl, hat⟩ := h
    exact fileread_closed hn hat hnext
  | returned r => cases hnext
  | ticks | wait => exact h.elim

/-- Every `copyout` of a call stores in the buffer. -/
theorem InCall.copyout {next : Bool → Loc} (h : InCall pt addr n loc)
    (hi : code.instr loc = .copyout dstva src next) :
    InBuffer addr n dstva (storable pt dstva src.length) := by
  cases loc with
  | pipe page loc =>
    simp only [code] at hi
    obtain ⟨next', hi'⟩ := Instr.copyout_of_map hi
    exact (Pipe.InRead.copyout h hi').mono (storableFrom_le ..)
  | pipeRt page loc =>
    simp only [code] at hi
    obtain ⟨next', hi'⟩ := Instr.copyout_of_map hi
    obtain ⟨rfl, hlen⟩ := PipeRt.InRead.copyout h.1 hi'
    intro j hj
    rw [hlen] at hj
    have hstore := h.2
    exact ⟨j, by omega, rfl⟩
  | cons loc =>
    simp only [code] at hi
    obtain ⟨next', hi'⟩ := Instr.copyout_of_map hi
    exact (Console.InRead.copyout h hi').mono (storableFrom_le ..)
  | fileread f ip a m at_ =>
    cases at_ with
    | copyout off tot k bytes =>
      obtain ⟨rfl, rfl, htot, hk⟩ := h
      cases hi
      refine InBuffer.mono (fun j hj => ⟨tot + j, ?_, ?_⟩) (storableFrom_le ..)
      · push_cast
        omega
      · rw [Nat.mod_add_mod, Nat.add_assoc]
    | enter | ilock | readi | loop | bmap | bread | advance | iunlock => cases hi
  | returned r => cases hi
  | ticks | wait => exact h.elim

/-- What a call returns is at most `n`. -/
theorem InCall.ret (h : InCall pt addr n loc) (hi : code.instr loc = .ret r) : r ≤ n := by
  cases loc with
  | pipe page loc =>
    simp only [code] at hi
    exact Pipe.InRead.ret h (Instr.ret_of_map hi)
  | pipeRt page loc =>
    simp only [code] at hi
    exact PipeRt.InRead.ret h.1 (Instr.ret_of_map hi)
  | cons loc =>
    simp only [code] at hi
    exact Console.InRead.ret h (Instr.ret_of_map hi)
  | fileread f ip a m at_ => cases at_ <;> cases hi
  | returned r =>
    cases hi
    exact h
  | ticks | wait => exact h.elim

/-- The switch on the type of the file leads into the call. -/
theorem inCall_of_enter {ip : Nat} {k : Bool} {d : Data} {next : Loc} (hn : 0 ≤ n)
    (hcond : (d.fs.ftable f).type = .pipeRt → (storable pt addr 40 : Int) ≤ n)
    (hnext : (code.instr (.fileread f ip addr n .enter)).Next k pt d next) :
    InCall pt addr n next := by
  obtain ⟨p, d', heq⟩ := hnext
  dsimp only at heq
  split at heq
  · cases heq
    show (-1 : Int) ≤ n
    omega
  split at heq
  · cases heq
    exact ⟨rfl, rfl, hn⟩
  · rename_i htype
    cases heq
    exact ⟨⟨rfl, rfl⟩, hcond htype⟩
  · cases heq
    exact ⟨rfl, rfl, trivial⟩
  · cases heq
    split
    · exact ⟨rfl, Int.le_refl n, by simp, hn⟩
    show (-1 : Int) ≤ n
    omega
  · cases heq

variable {p : Fin NPROC}

/-- A call stays at its locations in every interleaving. -/
theorem inCall_of_run {s s' t : State} {ip : Nat} {ls : List Label} (hn : 0 ≤ n)
    (hcall : (s.proc p).ctl = .code (.fileread f ip addr n .enter))
    (hcond : (s.data.fs.ftable f).type = .pipeRt → (storable (s.pagetable p) addr 40 : Int) ≤ n)
    (hfirst : Steps code s (.run p) s') (hrun : Run (StepsInCall code p) s' ls t) :
    t.pagetable p = s.pagetable p ∧ InCall (s.pagetable p) addr n (t.proc p).ctl.loc := by
  have hpt : s'.pagetable p = s.pagetable p := by rw [State.step_pagetable hfirst]
  have hnext := State.run_next hcall hfirst
  exact (inCall_closed hn _).of_run hpt (inCall_of_enter hn hcond hnext) hrun

/-- What `pipe_rt_read` does with the task that it has taken. -/
theorem run_deliver {s : State} {page : Nat} {task : PipeRt.Task}
    (hstate : (s.proc p).state = .running)
    (hctl : (s.proc p).ctl = .code (.pipeRt page (.read addr n (.copyout task)))) :
    s.run code p = some ({ s with
        ram := (copyoutRam (s.pagetable p) s.ram addr task.encode).2 }.setCtl p
      (.code (.pipeRt page (.release
        (if (copyoutRam (s.pagetable p) s.ram addr task.encode).1 then PipeRt.sizeofTask
          else -1))))) := by
  rw [State.run, hctl]
  dsimp only
  rw [if_pos hstate]
  rfl

/-- The step with which `pipe_rt_read` delivers a task stores in the buffer
and leads to a result of at most `n`, whatever the memory holds. -/
def DeliversInBuffer (s : State) (p : Fin NPROC) (page addr : Nat) (n : Int) : Prop :=
  ∀ ram u, Steps code { s with ram := ram } (.run p) u →
    ChangesOnly (s.pagetable p) addr n ram u.ram ∧
    ∀ r, (u.proc p).ctl = .code (.pipeRt page (.release r)) → r ≤ n

theorem storable_le_of_delivers {s : State} {page : Nat} {task : PipeRt.Task}
    (hn : 0 ≤ n) (hstate : (s.proc p).state = .running)
    (hctl : (s.proc p).ctl = .code (.pipeRt page (.read addr n (.copyout task))))
    (h : DeliversInBuffer s p page addr n) : (storable (s.pagetable p) addr 40 : Int) ≤ n := by
  have hlen := task.encode_length
  by_contra hlt
  by_cases hall : storable (s.pagetable p) addr 40 = 40
  · -- the whole task has been stored, and its size is returned
    have hok : (copyoutRam (s.pagetable p) s.ram addr task.encode).1 = true := by
      rw [copyoutRam_ok_iff, hlen, hall]
    have hr := (h s.ram _ (run_deliver hstate hctl)).2 PipeRt.sizeofTask (by
      rw [State.setCtl, State.setProc_self, hok]
      rfl)
    rw [hall] at hlt
    exact hlt hr
  -- the bytes up to the end of the page have been stored
  have hle : storable (s.pagetable p) addr 40 ≤ 40 := storableFrom_le ..
  obtain ⟨ram, a, hchange, hout⟩ : ∃ ram a,
      (copyoutRam (s.pagetable p) ram addr task.encode).2 a ≠ ram a ∧
      ∀ i < n.toNat, userByte (s.pagetable p) ((addr + i) % 2 ^ 64) ≠ some a :=
    exists_change_beyond (by rw [hlen]; decide) (by rw [hlen]; omega) (by rw [hlen]; omega)
  have hdeliver := run_deliver (s := { s with ram := ram }) hstate hctl
  obtain ⟨i, hi, hbyte⟩ := (h ram _ hdeliver).1 a hchange
  exact hout i (by omega) hbyte

/-- In every run of a `fileread` of a file that is not a priority pipe, or of
one at whose `addr` no more than `n` bytes of a task can be stored: every step
of the process changes user memory in the buffer only, and it returns at most
`n`.  When `pipe_rt_read` delivers a task, that condition is also necessary. -/
theorem fileread_in_buffer {p : Fin NPROC} {addr : Nat} {n : Int} (hn : 0 ≤ n) :
    (∀ (s s' t : State) (f : Fin NFILE) (ip : Nat) (ls : List Label),
      (s.proc p).ctl = .code (.fileread f ip addr n .enter) →
      ((s.data.fs.ftable f).type = .pipeRt → (storable (s.pagetable p) addr 40 : Int) ≤ n) →
      Steps code s (.run p) s' → Run (StepsInCall code p) s' ls t →
      (∀ u, Steps code t (.run p) u → ChangesOnly (t.pagetable p) addr n t.ram u.ram) ∧
      ∀ loc r, (t.proc p).ctl = .code loc → code.instr loc = .ret r → r ≤ n) ∧
    ∀ (s : State) (page : Nat) (task : PipeRt.Task), (s.proc p).state = .running →
      (s.proc p).ctl = .code (.pipeRt page (.read addr n (.copyout task))) →
      (DeliversInBuffer s p page addr n ↔ (storable (s.pagetable p) addr 40 : Int) ≤ n) := by
  constructor
  · intro s s' t f ip ls hcall hcond hfirst hrun
    obtain ⟨hpt, hloc⟩ := inCall_of_run hn hcall hcond hfirst hrun
    rw [← hpt] at hloc
    constructor
    · intro u hu
      obtain heq | ⟨loc, dstva, src, next, hctl, hi, heq⟩ := State.run_ram hu
      · rw [heq]
        exact fun a hne => absurd rfl hne
      · rw [hctl] at hloc
        rw [heq]
        exact changesOnly_copyoutRam (hloc.copyout hi) t.ram
    · intro loc r hctl hi
      rw [hctl] at hloc
      exact hloc.ret hi
  · intro s page task hstate hctl
    refine ⟨storable_le_of_delivers hn hstate hctl, fun hstore ram u hu => ?_⟩
    have hin : InCall (s.pagetable p) addr n (.pipeRt page (.read addr n (.copyout task))) :=
      ⟨⟨rfl, rfl⟩, hstore⟩
    constructor
    · have hdeliver := run_deliver (s := { s with ram := ram }) hstate hctl
      cases hdeliver.symm.trans hu
      exact changesOnly_copyoutRam (hin.copyout rfl) ram
    · intro r hr
      have hnext : InCall (s.pagetable p) addr n (u.proc p).ctl.loc :=
        inCall_closed hn _ hin (State.run_next (s := { s with ram := ram }) hctl hu)
      rw [hr] at hnext
      exact hnext.1

/-- A kernel with a task in the queue of its priority pipe, while process 1
reads up to `n` bytes from it to address 0. -/
def readerOfTask (n : Int) : State :=
  let d := Data.boot .pipeRt
  let task : PipeRt.Task :=
    { priority := 1, pid := 2, x := 3, y := 4, op := 43, result := 0, error := 0 }
  let r := PipeRt.pqInsert d.kmem [] task
  let s : State := State.idle
    { d with kmem := r.1, pipeRt := fun _ => { PipeRt.Pipe.init with head := r.2 } }
    (.returned 0) (fun _ => 7) (onePage 0x87000000)
  after (State.step code) s [.start 1 (.fileread 0 0 0 n .enter)]

/-- The reader after the switch on the type of the file. -/
def readerInCall (n : Int) : State := after (State.step code) (readerOfTask n) [.run 1]

/-- The reader with a task in its hands. -/
def readerDelivers (n : Int) : State := after (State.step code) (readerInCall n) (runs 3 1)

theorem fileread_in_buffer_task :
    ((readerOfTask 40).proc 1).ctl = .code (.fileread 0 0 0 40 .enter) ∧
      Steps code (readerOfTask 40) (.run 1) (readerInCall 40) ∧
      Run (StepsInCall code 1) (readerInCall 40) (runs 3 1) (readerDelivers 40) ∧
      (∀ u, Steps code (readerDelivers 40) (.run 1) u →
        ChangesOnly ((readerDelivers 40).pagetable 1) 0 40 (readerDelivers 40).ram u.ram) ∧
      DeliversInBuffer (readerDelivers 40) 1 0 0 40 := by
  have hstore : (storable (onePage 0x87000000) 0 40 : Int) ≤ 40 := by decide +kernel
  have hfirst : Steps code (readerOfTask 40) (.run 1) (readerInCall 40) :=
    step_after (by decide +kernel)
  have hrun : Run (Steps code) (readerInCall 40) (runs 3 1) (readerDelivers 40) :=
    Run.of_after (by decide +kernel)
  have hrun : Run (StepsInCall code 1) (readerInCall 40) (runs 3 1) (readerDelivers 40) :=
    hrun.of_labels (by simp [runs])
  have h := @fileread_in_buffer 1 0 40 (by decide)
  exact ⟨rfl, hfirst, hrun, (h.1 _ _ _ _ _ _ rfl (fun _ => hstore) hfirst hrun).1,
    (h.2 _ _ _ (by decide +kernel) rfl).2 hstore⟩

/-- A read of 4 bytes from a priority pipe with a task changes the byte behind
the buffer and returns 40. -/
theorem fileread_overruns_buffer :
    ((readerOfTask 4).proc 1).ctl = .code (.fileread 0 0 0 4 .enter) ∧
      Steps code (readerOfTask 4) (.run 1) (readerInCall 4) ∧
      Run (StepsInCall code 1) (readerInCall 4) (runs 3 1) (readerDelivers 4) ∧
      ∃ u v, Steps code (readerDelivers 4) (.run 1) u ∧
        ¬ ChangesOnly ((readerDelivers 4).pagetable 1) 0 4 (readerDelivers 4).ram u.ram ∧
        Steps code u (.run 1) v ∧ (v.proc 1).ctl = .code (.pipeRt 0 (.returned 40)) := by
  have hrun : Run (Steps code) (readerInCall 4) (runs 3 1) (readerDelivers 4) :=
    Run.of_after (by decide +kernel)
  refine ⟨rfl, step_after (by decide +kernel), hrun.of_labels (by simp [runs]), _, _,
    step_after (by decide +kernel), ?_, step_after (by decide +kernel), rfl⟩
  intro hchanges
  obtain ⟨i, hi, hbyte⟩ := hchanges (0x87000000 + 4) (by decide +kernel)
  have hout : ∀ i < 4, userByte (onePage 0x87000000) ((0 + i) % 2 ^ 64) ≠
      some (0x87000000 + 4) := by decide +kernel
  exact hout i (by omega) hbyte

end Kern

end Xv6
