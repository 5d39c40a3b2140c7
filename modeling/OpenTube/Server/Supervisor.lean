import Mathlib.Data.List.Nodup
import OpenTube.Common.Numbers
import OpenTube.Lib.Run

/-!
# The master process and its pidfile

`spawn_worker` of `core_process.c`: the master starts one worker after another until
one ends with a status of its own or too many of them crash at once. `create_pidfile`
keeps a second master from starting; the file is removed by `remove_pidfile`, which a
worker calls when it quits, also when it quits to be started again.

`Host` has the masters of one pidfile and the processes that `kill` finds. A start is
one step, from the reading of the file to its writing.
-/

namespace OpenTube

open Machine

/-! ## The loop of the master -/

/-- `WORKER_RESTART_STATUS_CODE`. -/
def workerRestartStatusCode : Nat := 0xFE

/-- How a worker ended: with a status, or by a signal after some seconds. -/
inductive WorkerEnd
  | exited (status : Nat)
  | signaled (signal : Nat) (seconds : Int)
deriving DecidableEq, Repr

/-- How the master ends: with the status of a worker, or with the message about one that
crashed. -/
inductive MasterEnd
  | exited (status : Nat)
  | crashed (signal : Nat)
deriving DecidableEq, Repr

/-- One turn of the loop of `spawn_worker`, behind `waitpid`: `respawn_fails` for the next
turn, or the end. -/
def respawn (respawnFails : UInt8) : WorkerEnd → Except MasterEnd UInt8
  | .exited status =>
      if status ≠ workerRestartStatusCode then .error (.exited status) else .ok respawnFails
  | .signaled signal seconds =>
      let respawnFails := if seconds ≤ 1 then respawnFails + 1 else 0
      if respawnFails > 10 then .error (.crashed signal) else .ok respawnFails

variable {w : WorkerEnd} {ws : List WorkerEnd} {n : Nat}

/-- A master: `respawn_fails` of its loop, how its workers ended, and whether the pidfile was
removed since it was started. -/
structure Master where
  pid : Nat
  respawnFails : UInt8
  ends : List WorkerEnd
  removed : Bool

/-- A master that goes on behind the end of a worker. -/
def Master.after (m : Master) (w : WorkerEnd) (respawnFails : UInt8) : Master :=
  { m with respawnFails, ends := m.ends ++ [w] }

/-- The pidfile, what `kill` finds, and the masters. -/
structure Host where
  pidfile : Option (List UInt8)
  alive : List Int
  masters : List Master

/-- `fprintf(f, "%d\n", pid)`. -/
def pidText (pid : Nat) : List UInt8 := intToStr pid 10 ++ [lf]

/-- `create_pidfile`: the file behind it, and whether the master may go on. A file that has
no number leaves `p` at zero. -/
def createPidfile (h : Host) (pid : Nat) : Option (List UInt8) × Bool :=
  let written := (some (pidText pid), true)
  match h.pidfile with
  | none => written
  | some text =>
      let p := atoi text
      if p = 0 then written
      else if (pid : Int) ≠ p then
        if p ∈ h.alive then (h.pidfile, false) else written
      else (h.pidfile, true)

/-- What happens on a host: a new process is started as a master, a worker of the master
`pid` ends, `remove_pidfile` is called, another process appears, and a process ends. -/
inductive HostEvent
  | start (pid : Nat)
  | workerEnds (pid : Nat) (w : WorkerEnd)
  | removePidfile
  | appear (p : Int)
  | finish (p : Int)

theorem digitsValue_append_lf (acc : Nat) (s : List UInt8) :
    digitsValue acc (s ++ [lf]) = digitsValue acc s := by
  induction s generalizing acc with
  | nil => rfl
  | cons c s ih =>
      rw [List.cons_append, digitsValue, digitsValue, ih]

/-- A text that begins with a digit. -/
theorem atoi_digit_cons {c : UInt8} {s : List UInt8} (hc : isDigit c = true) :
    atoi (c :: s) = intOfLong (digitsValue 0 (c :: s)) := by
  have hspace : isSpace c = false := by
    revert hc
    exact forall_byte (P := fun c => isDigit c = true → isSpace c = false) (by decide) c
  have hhyphen : c ≠ hyphen := by
    rintro rfl
    exact absurd hc (by decide)
  have hplus : c ≠ plus := by
    rintro rfl
    exact absurd hc (by decide)
  simp [atoi, hspace, hhyphen, hplus]

/-- The text of a number is read back. -/
theorem atoi_pidText {pid : Nat} (hpos : 0 < pid) (hpid : pid < 2 ^ 31) :
    atoi (pidText pid) = pid := by
  have hdigits := isDigit_of_mem_xToStr (Int.natCast_nonneg pid)
  have hvalue := digitsValue_xToStr (Int.natCast_nonneg pid) (by omega)
  rw [pidText, intToStr]
  generalize xToStr (pid : Int) 10 = ds at hdigits hvalue
  cases ds with
  | nil =>
      rw [digitsValue] at hvalue
      omega
  | cons c ds =>
      rw [List.cons_append, atoi_digit_cons (hdigits c List.mem_cons_self), ← List.cons_append,
        digitsValue_append_lf, hvalue, intOfLong, int32]
      omega

namespace Host

/-- A process ends. -/
def finish (h : Host) (p : Int) : Host :=
  { h with
    alive := h.alive.filter fun q => q ≠ p
    masters := h.masters.filter fun m => (m.pid : Int) ≠ p }

/-- The master `pid` goes on with the counter. -/
def resume (h : Host) (pid : Nat) (w : WorkerEnd) (respawnFails : UInt8) : Host :=
  { h with masters := h.masters.map fun m => if m.pid = pid then m.after w respawnFails else m }

/-- One step. A process with the number of a new one does not exist yet, and a worker is that
of a master. A master that may not go on ends at once. -/
def step (h : Host) : HostEvent → Option Host
  | .start pid =>
      if pid = 0 ∨ 2 ^ 31 ≤ pid ∨ (pid : Int) ∈ h.alive then none
      else
        let (pidfile, lock) := createPidfile h pid
        if lock then some
          { pidfile
            alive := pid :: h.alive
            masters := ⟨pid, 0, [], false⟩ :: h.masters }
        else some { h with pidfile }
  | .workerEnds pid w =>
      (h.masters.find? fun m => m.pid = pid).map fun m =>
        match respawn m.respawnFails w with
        | .ok respawnFails => h.resume pid w respawnFails
        | .error _ => h.finish pid
  | .removePidfile => some
      { h with
        pidfile := none
        masters := h.masters.map fun m => { m with removed := true } }
  | .appear p => if p ∈ h.alive then none else some { h with alive := p :: h.alive }
  | .finish p => some (h.finish p)

/-- A host without masters, with any processes and any file. -/
def start (pidfile : Option (List UInt8)) (alive : List Int) : Host := ⟨pidfile, alive, []⟩

/-- The masters whose pidfile was not removed. -/
def keepers (h : Host) : List Master := h.masters.filter fun m => !m.removed

/-- The masters are processes, at most one of them has not seen its pidfile removed, and
that one is named there. -/
structure Kept (h : Host) : Prop where
  distinct : (h.masters.map Master.pid).Nodup
  alive : ∀ m ∈ h.masters, 0 < m.pid ∧ (m.pid : Int) ∈ h.alive
  few : h.keepers.length ≤ 1
  named : ∀ m ∈ h.keepers, ∃ text, h.pidfile = some text ∧ atoi text = m.pid
  loop : ∀ m ∈ h.masters, m.ends.foldlM respawn 0 = .ok m.respawnFails

variable {h : Host}

theorem Kept.finish (hk : h.Kept) (p : Int) : (h.finish p).Kept := by
  have hmasters : (h.finish p).masters.Sublist h.masters := List.filter_sublist
  have hkeepers : (h.finish p).keepers.Sublist h.keepers := hmasters.filter _
  refine ⟨hk.distinct.sublist (hmasters.map _), fun m hm => ?_,
    Nat.le_trans hkeepers.length_le hk.few, fun m hm => hk.named m (hkeepers.subset hm),
    fun m hm => hk.loop m (hmasters.subset hm)⟩
  obtain ⟨hm, hne⟩ := List.mem_filter.1 hm
  obtain ⟨hpos, halive⟩ := hk.alive m hm
  exact ⟨hpos, List.mem_filter.2 ⟨halive, hne⟩⟩

theorem Kept.removePidfile (hk : h.Kept) :
    Kept { h with
      pidfile := none
      masters := h.masters.map fun m => { m with removed := true } } := by
  have hnone : keepers { h with
      pidfile := none
      masters := h.masters.map fun m => { m with removed := true } } = [] := by
    refine List.filter_eq_nil_iff.2 fun m hm => ?_
    obtain ⟨m, -, rfl⟩ := List.mem_map.1 hm
    exact Bool.false_ne_true
  refine ⟨?_, fun m hm => ?_, by rw [hnone]; exact Nat.zero_le 1, fun m hm => ?_, fun m hm => ?_⟩
  · rw [List.map_map]
    exact hk.distinct
  · obtain ⟨m', hm', rfl⟩ := List.mem_map.1 hm
    exact hk.alive m' hm'
  · rw [hnone] at hm
    exact absurd hm List.not_mem_nil
  · obtain ⟨m', hm', rfl⟩ := List.mem_map.1 hm
    exact hk.loop m' hm'

theorem Kept.appear (hk : h.Kept) (p : Int) : Kept { h with alive := p :: h.alive } :=
  ⟨hk.distinct, fun m hm => ⟨(hk.alive m hm).1, List.mem_cons_of_mem p (hk.alive m hm).2⟩, hk.few,
    hk.named, hk.loop⟩

/-- A master that goes on keeps its number and whether its file was removed. -/
theorem Kept.resume (hk : h.Kept) {m : Master} (hm : m ∈ h.masters) {w : WorkerEnd}
    {respawnFails : UInt8} (hstep : respawn m.respawnFails w = .ok respawnFails) :
    (h.resume m.pid w respawnFails).Kept := by
  obtain ⟨f, hf⟩ : ∃ f : Master → Master,
      f = fun m' => if m'.pid = m.pid then m'.after w respawnFails else m' := ⟨_, rfl⟩
  have hpid : ∀ m', (f m').pid = m'.pid := fun m' => by
    rw [hf]
    dsimp only
    split <;> rfl
  have hremoved : ∀ m', (f m').removed = m'.removed := fun m' => by
    rw [hf]
    dsimp only
    split <;> rfl
  have hmasters : (h.resume m.pid w respawnFails).masters = h.masters.map f := by
    rw [Host.resume, hf]
  have hkeepers : (h.resume m.pid w respawnFails).keepers = h.keepers.map f := by
    rw [keepers, hmasters, List.filter_map, keepers]
    exact congrArg _ (List.filter_congr fun m' _ => congrArg _ (hremoved m'))
  refine ⟨?_, ?_, ?_, ?_, ?_⟩
  · have hpids : h.masters.map (Master.pid ∘ f) = h.masters.map Master.pid :=
      List.map_congr_left fun m' _ => hpid m'
    rw [hmasters, List.map_map, hpids]
    exact hk.distinct
  · rw [hmasters]
    intro v hv
    obtain ⟨m', hm', rfl⟩ := List.mem_map.1 hv
    rw [hpid]
    exact hk.alive m' hm'
  · rw [hkeepers, List.length_map]
    exact hk.few
  · rw [hkeepers]
    intro v hv
    obtain ⟨m', hm', rfl⟩ := List.mem_map.1 hv
    rw [hpid]
    exact hk.named m' hm'
  · rw [hmasters]
    intro v hv
    obtain ⟨m', hm', rfl⟩ := List.mem_map.1 hv
    rw [hf]
    dsimp only
    split
    · rename_i heq
      obtain rfl := List.inj_on_of_nodup_map hk.distinct hm' hm heq
      rw [Master.after, List.foldlM_append, hk.loop m' hm']
      change List.foldlM respawn m'.respawnFails [w] = _
      rw [List.foldlM_cons, hstep]
      rfl
    · exact hk.loop m' hm'

/-- While a master is kept in the file, every other start is refused. -/
theorem Kept.refuses (hk : h.Kept) {m : Master} (hm : m ∈ h.keepers) {pid : Nat}
    (hpid : (pid : Int) ∉ h.alive) : createPidfile h pid = (h.pidfile, false) := by
  obtain ⟨text, htext, hnumber⟩ := hk.named m hm
  obtain ⟨hmpos, halive⟩ := hk.alive m (List.mem_filter.1 hm).1
  have hne : (pid : Int) ≠ m.pid := fun heq => hpid (heq ▸ halive)
  rw [createPidfile, htext]
  dsimp only
  rw [hnumber, if_neg (by omega), if_pos hne, if_pos halive]

/-- A start writes the file, is refused, or finds its own number there. -/
theorem createPidfile_cases (h : Host) (pid : Nat) :
    createPidfile h pid = (some (pidText pid), true) ∨
      createPidfile h pid = (h.pidfile, false) ∨
      createPidfile h pid = (h.pidfile, true) ∧
        ∃ text, h.pidfile = some text ∧ atoi text = pid := by
  rw [createPidfile]
  cases h.pidfile with
  | none => exact .inl rfl
  | some text =>
      dsimp only
      split_ifs with hzero hne halive
      · exact .inl rfl
      · exact .inr (.inl rfl)
      · exact .inl rfl
      · exact .inr (.inr ⟨rfl, text, rfl, (not_not.1 hne).symm⟩)

/-- A master that may go on is named in the file, and no other one is kept there. -/
theorem Kept.created (hk : h.Kept) {pid : Nat} (hpos : 0 < pid) (hlt : pid < 2 ^ 31)
    (hpid : (pid : Int) ∉ h.alive) {pidfile : Option (List UInt8)}
    (hcreate : createPidfile h pid = (pidfile, true)) :
    h.keepers = [] ∧ ∃ text, pidfile = some text ∧ atoi text = pid := by
  constructor
  · refine List.eq_nil_iff_forall_not_mem.2 fun m hm => ?_
    rw [hk.refuses hm hpid] at hcreate
    exact Bool.false_ne_true (Prod.mk.inj hcreate).2
  · obtain hwritten | hrefused | ⟨hfound, text, htext, hnumber⟩ := createPidfile_cases h pid
    · rw [hwritten] at hcreate
      exact ⟨_, (Prod.mk.inj hcreate).1.symm, atoi_pidText hpos hlt⟩
    · rw [hrefused] at hcreate
      exact absurd (Prod.mk.inj hcreate).2 Bool.false_ne_true
    · rw [hfound, htext] at hcreate
      exact ⟨text, (Prod.mk.inj hcreate).1.symm, hnumber⟩

/-- A start that is refused leaves the file as it is. -/
theorem createPidfile_refused {pid : Nat} {pidfile : Option (List UInt8)}
    (hcreate : createPidfile h pid = (pidfile, false)) : pidfile = h.pidfile := by
  obtain hwritten | hrefused | ⟨hfound, -⟩ := createPidfile_cases h pid
  · rw [hwritten] at hcreate
    exact absurd (Prod.mk.inj hcreate).2.symm Bool.false_ne_true
  · rw [hrefused] at hcreate
    exact (Prod.mk.inj hcreate).1.symm
  · rw [hfound] at hcreate
    exact absurd (Prod.mk.inj hcreate).2.symm Bool.false_ne_true

theorem Kept.startMaster (hk : h.Kept) {pid : Nat} {t : Host}
    (hstep : h.step (.start pid) = some t) : t.Kept := by
  rw [Host.step] at hstep
  split_ifs at hstep with hbad
  simp only [not_or, Nat.not_le] at hbad
  obtain ⟨hzero, hlt, hpid⟩ := hbad
  cases hcreate : createPidfile h pid with
  | mk pidfile lock =>
      rw [hcreate] at hstep
      cases lock with
      | false =>
          obtain rfl := Option.some.inj hstep
          rw [createPidfile_refused hcreate]
          exact hk
      | true =>
          obtain rfl := Option.some.inj hstep
          have hpos := Nat.pos_of_ne_zero hzero
          obtain ⟨hnone, hnamed⟩ := hk.created hpos hlt hpid hcreate
          have hkeepers : keepers ⟨pidfile, pid :: h.alive, ⟨pid, 0, [], false⟩ :: h.masters⟩ =
              [⟨pid, 0, [], false⟩] := by
            rw [keepers, List.filter_cons_of_pos rfl]
            exact congrArg _ hnone
          refine ⟨?_, ?_, by rw [hkeepers]; exact Nat.le_refl 1, ?_, ?_⟩
          · refine List.nodup_cons.2 ⟨fun hmem => ?_, hk.distinct⟩
            obtain ⟨m, hm, heq⟩ := List.mem_map.1 hmem
            have halive := (hk.alive m hm).2
            rw [show m.pid = pid from heq] at halive
            exact hpid halive
          · intro m hm
            rcases List.mem_cons.1 hm with rfl | hm
            · exact ⟨hpos, List.mem_cons_self⟩
            · exact ⟨(hk.alive m hm).1, List.mem_cons_of_mem _ (hk.alive m hm).2⟩
          · rw [hkeepers]
            intro m hm
            obtain rfl := List.mem_singleton.1 hm
            exact hnamed
          · intro m hm
            rcases List.mem_cons.1 hm with rfl | hm
            · rfl
            · exact hk.loop m hm

theorem Kept.step (hk : h.Kept) {e : HostEvent} {t : Host} (hstep : h.step e = some t) :
    t.Kept := by
  cases e with
  | start pid => exact hk.startMaster hstep
  | workerEnds pid w =>
      obtain ⟨m, hfind, hnext⟩ := Option.map_eq_some_iff.1 hstep
      have hm := List.mem_of_find?_eq_some hfind
      obtain rfl : m.pid = pid := by simpa using List.find?_some hfind
      cases hrespawn : respawn m.respawnFails w with
      | error e =>
          rw [hrespawn] at hnext
          exact hnext ▸ hk.finish m.pid
      | ok respawnFails =>
          rw [hrespawn] at hnext
          exact hnext ▸ hk.resume hm hrespawn
  | removePidfile => exact Option.some.inj hstep ▸ hk.removePidfile
  | appear p =>
      rw [Host.step] at hstep
      split_ifs at hstep
      exact Option.some.inj hstep ▸ hk.appear p
  | finish p => exact Option.some.inj hstep ▸ hk.finish p

end Host

end OpenTube
