import EluaWebServer.Lib.Slots
import EluaWebServer.Lib.Transition
import EluaWebServer.Newlib.Fcntl
import Mathlib.Data.Int.Order.Basic

/-!
# File descriptors of the semihosting file system

The table of open files and the counter of the slots in use, which is
incremented before the host is asked and not decremented when the host refuses.
The counter is right, and every open does what it returns, exactly in the runs
where no host open fails.
-/

namespace Semifs

open Fcntl

def SEMIFS_MAX_FDS : Nat := 4

/-- `poslog`. -/
structure Poslog where
  handle : Int
  pos : Int
  deriving DecidableEq

/-- The handle of a free slot. -/
def Poslog.Free (p : Poslog) : Prop := p.handle = -1

instance : DecidablePred Poslog.Free := fun p => inferInstanceAs (Decidable (p.handle = -1))

/-- `semifs_fd_table` and `semifs_num_fd`. -/
structure Table where
  fds : Fin SEMIFS_MAX_FDS → Poslog
  numFd : Int

inductive Errno where
  | ENFILE
  deriving DecidableEq, Repr

/-- The first slot that is free. -/
def semifsFindEmptyFd (t : Table) : Option (Fin SEMIFS_MAX_FDS) := Slots.findEmpty Poslog.Free t.fds

/-- The flags that the host is asked to open with. -/
def openFlags (flags : UInt32) : UInt32 :=
  let aflags : UInt32 := 0
  let aflags := if flags &&& O_RDWR ≠ 0 then aflags ||| 2 else aflags
  let aflags := if flags &&& O_CREAT ≠ 0 then aflags ||| 4 else aflags
  let aflags := if flags &&& O_TRUNC ≠ 0 then aflags ||| 4 else aflags
  -- Can't ask for w AND a; means just 'a'.
  if flags &&& O_APPEND ≠ 0 then (aflags &&& ~~~4) ||| 8 else aflags

/-- What the host does with `SYS_OPEN` and `SYS_CLOSE`: the handle, or a negative number, for
a path and flags, and the result of closing a handle. -/
structure Host where
  sysOpen : List UInt8 → UInt32 → Int
  sysClose : Int → Int

/-- `semifs_open_r`: the table and the descriptor.  There is no result when the handle would
be written in front of the table. -/
def semifsOpenR (host : Host) (t : Table) (path : List UInt8) (flags : UInt32) :
    Option (Table × Except Errno Int) :=
  if t.numFd = SEMIFS_MAX_FDS then some (t, .error .ENFILE)
  else
    let fd := semifsFindEmptyFd t
    let t := { t with numFd := t.numFd + 1 }
    let fh := host.sysOpen path (openFlags flags)
    if 0 ≤ fh then
      fd.map fun i => ({ t with fds := Function.update t.fds i ⟨fh, 0⟩ }, .ok i.val)
    else some (t, .ok (fd.elim (-1) fun i => (i.val : Int)))

/-- `semifs_close_r`. -/
def semifsCloseR (host : Host) (t : Table) (fd : Fin SEMIFS_MAX_FDS) : Table × Int :=
  let fh := (t.fds fd).handle
  ({ fds := Function.update t.fds fd { t.fds fd with handle := -1 }, numFd := t.numFd - 1 },
    host.sysClose fh)

/-- `semifs_init`. -/
def semifsInit : Table := ⟨fun _ => ⟨-1, 0⟩, 0⟩

/-! ## Sequences of calls -/

/-- A call, with what the host does. -/
inductive Call where
  | open_ (path : List UInt8) (flags : UInt32) (host : Host)
  | close (fd : Fin SEMIFS_MAX_FDS) (host : Host)

/-- An open that has returned: the table it was called with, what the host would return, the
table afterwards and the result. -/
structure Opened where
  before : Table
  fh : Int
  after : Table
  result : Except Errno Int

/-- The table, and the opens so far. -/
structure System where
  table : Table
  opens : List Opened

def System.init : System := ⟨semifsInit, []⟩

/-- One call; only open descriptors are closed. -/
def step (s : System) : Call → Option System
  | .open_ path flags host =>
      (semifsOpenR host s.table path flags).map fun r =>
        ⟨r.1, s.opens ++ [⟨s.table, host.sysOpen path (openFlags flags), r.1, r.2⟩]⟩
  | .close fd host =>
      if (s.table.fds fd).Free then none
      else some { s with table := (semifsCloseR host s.table fd).1 }

def Table.used (t : Table) : Finset (Fin SEMIFS_MAX_FDS) := Slots.used Poslog.Free t.fds

/-- What an open is for: it is refused when all slots are in use, gives a free slot to the
handle of the host, and fails with the host. -/
structure Opened.Right (o : Opened) : Prop where
  refused : o.result = .error .ENFILE ↔ ∀ fd, ¬ (o.before.fds fd).Free
  failed : o.result ≠ .error .ENFILE → o.fh < 0 → o.result = .ok (-1) ∧ o.after = o.before
  opened : o.result ≠ .error .ENFILE → 0 ≤ o.fh →
    ∃ fd : Fin SEMIFS_MAX_FDS, o.result = .ok fd.val ∧ (o.before.fds fd).Free

/-- The counter is the number of slots in use, and every open was right. -/
structure Consistent (s : System) : Prop where
  numFd : s.table.numFd = s.table.used.card
  opens : ∀ o ∈ s.opens, o.Right

/-- The host opens the file, if it is asked to. -/
def HostOpens (s : System) : Call → Prop
  | .open_ path flags host =>
      s.table.numFd = SEMIFS_MAX_FDS ∨ 0 ≤ host.sysOpen path (openFlags flags)
  | .close _ _ => True

instance (s : System) : (c : Call) → Decidable (HostOpens s c)
  | .open_ path flags host => inferInstanceAs (Decidable
      (s.table.numFd = SEMIFS_MAX_FDS ∨ 0 ≤ host.sysOpen path (openFlags flags)))
  | .close _ _ => inferInstanceAs (Decidable True)

variable {s s' : System} {t : Table}

/-- The counter says whether a slot is free. -/
theorem numFd_eq_iff (h : t.numFd = t.used.card) :
    t.numFd = SEMIFS_MAX_FDS ↔ ∀ fd, ¬ (t.fds fd).Free := by
  rw [h, Int.natCast_inj]
  exact Slots.card_used_eq_iff

/-- An open after which the system is as before but for the open itself. -/
theorem Consistent.snoc (h : Consistent s) {t : Table} {o : Opened}
    (hn : t.numFd = t.used.card) (ho : o.Right) : Consistent ⟨t, s.opens ++ [o]⟩ := by
  refine ⟨hn, ?_⟩
  intro o' ho'
  rw [List.mem_append, List.mem_singleton] at ho'
  rcases ho' with hold | rfl
  · exact h.opens o' hold
  · exact ho

/-- An open of a consistent system: refused, or done by the host, or failed there. -/
theorem open_cases (h : Consistent s) (path : List UInt8) (flags : UInt32) (host : Host) :
    (s.table.numFd = SEMIFS_MAX_FDS ∧
      semifsOpenR host s.table path flags = some (s.table, .error .ENFILE)) ∨
    (s.table.numFd ≠ SEMIFS_MAX_FDS ∧ ∃ i, (s.table.fds i).Free ∧
      ((0 ≤ host.sysOpen path (openFlags flags) ∧ semifsOpenR host s.table path flags =
          some (⟨Function.update s.table.fds i ⟨host.sysOpen path (openFlags flags), 0⟩,
            s.table.numFd + 1⟩, .ok i.val)) ∨
        (host.sysOpen path (openFlags flags) < 0 ∧ semifsOpenR host s.table path flags =
          some (⟨s.table.fds, s.table.numFd + 1⟩, .ok i.val)))) := by
  by_cases hfull : s.table.numFd = SEMIFS_MAX_FDS
  · left
    exact ⟨hfull, by rw [semifsOpenR, if_pos hfull]⟩
  · right
    refine ⟨hfull, ?_⟩
    cases hfind : semifsFindEmptyFd s.table with
    | none =>
        have hnone := Slots.findEmpty_eq_none.mp hfind
        exact absurd ((numFd_eq_iff h.numFd).mpr hnone) hfull
    | some i =>
        refine ⟨i, Slots.free_of_findEmpty hfind, ?_⟩
        by_cases hfh : 0 ≤ host.sysOpen path (openFlags flags)
        · left
          refine ⟨hfh, ?_⟩
          rw [semifsOpenR, if_neg hfull]
          simp only [if_pos hfh, hfind, Option.map_some]
        · right
          refine ⟨not_le.mp hfh, ?_⟩
          rw [semifsOpenR, if_neg hfull]
          simp only [if_neg hfh, hfind, Option.elim_some]

/-- **An open.**  The system stays consistent exactly if the host opens the file when asked. -/
theorem open_step (h : Consistent s) (path : List UInt8) (flags : UInt32) (host : Host) :
    ∃ s', step s (.open_ path flags host) = some s' ∧
      (Consistent s' ↔ HostOpens s (.open_ path flags host)) := by
  have hiff := numFd_eq_iff h.numFd
  rcases open_cases h path flags host with ⟨hfull, hr⟩ | ⟨hfree, i, hi, ⟨hfh, hr⟩ | ⟨hfh, hr⟩⟩
  · refine ⟨_, by rw [step, hr, Option.map_some], iff_of_true ?_ (.inl hfull)⟩
    apply h.snoc h.numFd
    exact ⟨iff_of_true rfl (hiff.mp hfull), fun hne => absurd rfl hne, fun hne => absurd rfl hne⟩
  · refine ⟨_, by rw [step, hr, Option.map_some], iff_of_true ?_ (.inr hfh)⟩
    have hused : ¬ Poslog.Free ⟨host.sysOpen path (openFlags flags), 0⟩ := by
      intro heq
      have hminus : host.sysOpen path (openFlags flags) = -1 := heq
      omega
    have hcard := Slots.card_used_fill hi hused
    apply h.snoc
    · change s.table.numFd + 1 = ((Slots.used Poslog.Free _).card : Int)
      rw [h.numFd, hcard, Int.natCast_succ]
      rfl
    · refine ⟨iff_of_false (by simp) ?_, ?_, ?_⟩
      · intro hall
        exact hall i hi
      · intro _ hneg
        exact absurd hfh (not_le.mpr hneg)
      · intro _ _
        exact ⟨i, rfl, hi⟩
  · refine ⟨_, by rw [step, hr, Option.map_some], iff_of_false ?_ ?_⟩
    · intro hbad
      have hn := hbad.numFd
      change s.table.numFd + 1 = (s.table.used.card : Int) at hn
      rw [h.numFd] at hn
      omega
    · intro hok
      rcases hok with hfull | hge
      · exact hfree hfull
      · omega

/-- **A close** of an open descriptor. -/
theorem Consistent.close (h : Consistent s) {fd : Fin SEMIFS_MAX_FDS} {host : Host}
    (hstep : step s (.close fd host) = some s') : Consistent s' := by
  simp only [step, Option.ite_none_left_eq_some, Option.some.injEq] at hstep
  obtain ⟨hopen, rfl⟩ := hstep
  refine ⟨?_, h.opens⟩
  have hfree : Poslog.Free { s.table.fds fd with handle := -1 } := rfl
  have hcard := Slots.card_used_clear hopen hfree
  have hn := h.numFd
  change s.table.numFd - 1 = ((Slots.used Poslog.Free _).card : Int)
  rw [hn, Table.used, ← hcard, Int.natCast_succ, Int.add_sub_cancel]
  rfl

theorem consistent_init : Consistent System.init := by
  refine ⟨?_, by simp [System.init]⟩
  have hempty : semifsInit.used = ∅ := Slots.used_eq_empty fun _ => rfl
  change semifsInit.numFd = (semifsInit.used.card : Int)
  rw [hempty]
  rfl

/-- **The descriptor table.**  In all states of a run the counter is the number of slots in
use and every open was right, exactly if no open of the run fails at the host. -/
theorem consistent_iff_hostOpens (calls : List Call) :
    (∀ n s, Transition.run step System.init (calls.take n) = some s → Consistent s) ↔
      Transition.Conforming step HostOpens System.init calls := by
  apply @Transition.forall_states_iff_of_partial _ _ _ _ Consistent _ (fun _ h => h) ?_ _ _
    consistent_init
  intro s c h
  cases c with
  | open_ path flags host =>
      obtain ⟨s', hstep, hiff⟩ := open_step h path flags host
      exact .inr ⟨s', hstep, id, hiff⟩
  | close fd host =>
      cases hstep : step s (.close fd host) with
      | none => exact .inl ⟨rfl, trivial⟩
      | some s' => exact .inr ⟨s', rfl, id, iff_of_true (h.close hstep) trivial⟩

/-- A host that opens no file. -/
def refusingHost : Host := ⟨fun _ _ => -1, fun _ => 0⟩

/-- An open that fails at the host is counted. -/
theorem not_consistent_refused :
    ∃ calls s, Transition.run step System.init calls = some s ∧ ¬ Consistent s := by
  refine ⟨[.open_ [] O_RDONLY refusingHost], _, rfl, ?_⟩
  intro h
  have hn := h.numFd
  revert hn
  decide

end Semifs
