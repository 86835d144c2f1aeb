import Mathlib.Data.Int.Notation
import Mathlib.Data.Nat.Notation
import Mathlib.Logic.Relation
import Mathlib.Tactic.Common

/-!
# The finish semaphore

An invocation runs the program in a thread of its own.  Its creator waits for the
semaphore `interpreter_finish_lock`, which the thread raises when the program has halted,
and then stops the thread to fetch its result.  A fatal signal wakes the creator without
the semaphore; the thread that is stopped then leaves it alone.

The two parties are modelled step by step, with the meaning the kernel gives to
`down_killable`, `up`, `kthread_stop` and `kthread_should_stop`.  One process at a time
holds `interpreter_lock`; all others turn away.

## Main definitions

* `System` — the semaphore, and where creator and thread are.
* `Step` — what they can do.
* `Orderly` — the creator does not give up when the thread is past its last look at the
  stop flag.
* `FinishSound` — what the semaphore is for.
-/

namespace Bispe.Threads

/-- Where the process is that holds `interpreter_lock`.  The flag of a process that is
back from `down_killable` says whether it has taken the token. -/
inductive Creator
  /-- No process holds the lock. -/
  | unlocked
  /-- In `init_interpreter`. -/
  | locked
  /-- In `down_killable`. -/
  | waiting
  /-- Before `kthread_stop`. -/
  | woken (token : Bool)
  /-- In `kthread_stop`, which has set the stop flag and waits for the thread. -/
  | stopping (token : Bool)
  /-- Back in `invoke_interpreter` with the result of the thread. -/
  | done (result : ℤ)
  deriving DecidableEq, Repr

/-- Where the interpreter thread is. -/
inductive Thread
  | none
  /-- Created, but not yet in `thread_main`. -/
  | created
  /-- At the head of the loop of `start_interpreter`. -/
  | loop
  /-- In an instruction cycle. -/
  | cycle
  /-- After the loop, before the last look at the stop flag. -/
  | left
  /-- `start_interpreter` has returned. -/
  | returned (res : ℤ)
  /-- Waiting for `kthread_stop`. -/
  | parked (res : ℤ)
  | exited (res : ℤ)
  deriving DecidableEq, Repr

/-- The state of the system. -/
structure System where
  /-- The count of `interpreter_finish_lock`. -/
  count : ℕ
  creator : Creator
  thread : Thread
  /-- What `kthread_should_stop` returns. -/
  shouldStop : Bool
  /-- The process that holds the lock has received a fatal signal. -/
  signalled : Bool
  /-- The program of this invocation has halted. -/
  halted : Bool
  /-- The error code it has halted with. -/
  errorCode : ℕ
  deriving DecidableEq, Repr

/-- The state after the module is loaded. -/
def System.initial : System where
  count := 0
  creator := .unlocked
  thread := .none
  shouldStop := false
  signalled := false
  halted := false
  errorCode := 0

inductive Action
  | trylock
  | busy
  | initFails
  | createFails
  | create
  | signal
  | takeToken
  | giveUp
  | stop
  | join
  | unlock
  | enter
  | testStop
  | cycleGoesOn
  | cycleHalts (code : ℕ)
  | lastTest
  | finish
  | exit
  deriving DecidableEq, Repr

/-- The result of `start_interpreter_thread` when `kthread_run` fails. -/
def creationFailed : ℤ := -2

/-- The result of `start_interpreter` when the thread was told to stop. -/
def forcedStop : ℤ := -1

/-- `-EINTR`, the result of a thread that is stopped before it runs. -/
def stoppedUnrun : ℤ := -4

/-- One step of a process or of the interpreter thread. -/
inductive Step : Action → System → System → Prop
  | trylock {s : System} : s.creator = .unlocked →
      Step .trylock s { s with creator := .locked, signalled := false }
  /-- Another process finds the lock taken. -/
  | busy {s : System} : s.creator ≠ .unlocked → Step .busy s s
  | initFails {s : System} : s.creator = .locked →
      Step .initFails s { s with creator := .unlocked }
  | createFails {s : System} : s.creator = .locked →
      Step .createFails s { s with creator := .done creationFailed }
  | create {s : System} : s.creator = .locked →
      Step .create s { s with
        creator := .waiting, thread := .created, shouldStop := false, halted := false }
  /-- A fatal signal may arrive at any time. -/
  | signal {s : System} : s.creator ≠ .unlocked → Step .signal s { s with signalled := true }
  | takeToken {s : System} {n : ℕ} : s.creator = .waiting → s.count = n + 1 →
      Step .takeToken s { s with creator := .woken true, count := n }
  | giveUp {s : System} : s.creator = .waiting → s.signalled = true →
      Step .giveUp s { s with creator := .woken false }
  | stop {s : System} {token : Bool} : s.creator = .woken token →
      Step .stop s { s with creator := .stopping token, shouldStop := true }
  | join {s : System} {token : Bool} {res : ℤ} : s.creator = .stopping token →
      s.thread = .exited res → Step .join s { s with creator := .done res, thread := .none }
  | unlock {s : System} {res : ℤ} : s.creator = .done res →
      Step .unlock s { s with creator := .unlocked }
  /-- A thread that is stopped before it runs does not run at all. -/
  | enter {s : System} : s.thread = .created →
      Step .enter s { s with thread := if s.shouldStop then .exited stoppedUnrun else .loop }
  | testStop {s : System} : s.thread = .loop →
      Step .testStop s { s with thread := if s.shouldStop then .left else .cycle }
  | cycleGoesOn {s : System} : s.thread = .cycle → Step .cycleGoesOn s { s with thread := .loop }
  | cycleHalts {s : System} (code : ℕ) : s.thread = .cycle →
      Step (.cycleHalts code) s { s with thread := .left, halted := true, errorCode := code }
  | lastTest {s : System} : s.thread = .left →
      Step .lastTest s { s with
        thread := .returned (if s.shouldStop then forcedStop else s.errorCode) }
  /-- `thread_main` raises the semaphore unless it was interrupted. -/
  | finish {s : System} {res : ℤ} : s.thread = .returned res →
      Step .finish s { s with
        thread := .parked res, count := if res ≠ forcedStop then s.count + 1 else s.count }
  | exit {s : System} {res : ℤ} : s.thread = .parked res → s.shouldStop = true →
      Step .exit s { s with thread := .exited res }

/-- The states of runs from the initial state whose steps all satisfy `P`. -/
inductive Reaches (P : System → Action → Prop) : System → Prop
  | initial : Reaches P .initial
  | step {s s' : System} {a : Action} : Reaches P s → Step a s s' → P s a → Reaches P s'

/-- The thread has looked at the stop flag for the last time. -/
def Thread.PastLastTest : Thread → Prop
  | .returned _ => True
  | .parked _ => True
  | .exited _ => True
  | _ => False

/-- The creator does not give up when the thread is past its last look at the stop flag,
and the thread does not look between the two steps in which the creator gives up and sets
the flag. -/
def Orderly (s : System) : Action → Prop
  | .giveUp => ¬ s.thread.PastLastTest
  | .lastTest => s.creator ≠ .woken false
  | _ => True

/-- Between two invocations the semaphore is down.  An invocation whose creator receives no
fatal signal stops its thread only when the program has halted, and gets its result. -/
structure FinishSound (s : System) : Prop where
  count : s.creator = .unlocked → s.count = 0
  stop : ∀ token, s.creator = .stopping token → s.signalled = false → s.halted = true
  result : ∀ res, s.creator = .done res → s.signalled = false → res ≠ creationFailed →
    res = s.errorCode ∧ s.halted = true

/-! ## Orderly runs -/

/-- The thread may still see the stop flag; it leaves the loop when the program has
halted. -/
def Thread.Works (halted : Bool) : Thread → Prop
  | .created => True
  | .loop => True
  | .cycle => True
  | .left => halted = true
  | _ => False

/-- The thread has been stopped before the end of the program, or will be. -/
def Thread.Interrupted : Thread → Prop
  | .none => False
  | .returned res => res = forcedStop
  | .parked res => res = forcedStop
  | _ => True

/-- The states of orderly runs. -/
inductive Expected (s : System) : Prop
  | unlocked : s.creator = .unlocked → s.thread = .none → s.count = 0 → Expected s
  | locked : s.creator = .locked → s.thread = .none → s.count = 0 → Expected s
  | running : s.creator = .waiting → s.shouldStop = false → s.thread.Works s.halted →
      s.count = 0 → Expected s
  | returned : s.creator = .waiting → s.shouldStop = false → s.thread = .returned s.errorCode →
      s.halted = true → s.count = 0 → Expected s
  | raised : s.creator = .waiting → s.shouldStop = false → s.thread = .parked s.errorCode →
      s.halted = true → s.count = 1 → Expected s
  | taken : s.creator = .woken true → s.shouldStop = false → s.thread = .parked s.errorCode →
      s.halted = true → s.count = 0 → Expected s
  | stopped : s.creator = .stopping true → s.shouldStop = true →
      s.thread = .parked s.errorCode ∨ s.thread = .exited s.errorCode → s.halted = true →
      s.count = 0 → Expected s
  | gaveUp : s.creator = .woken false → s.shouldStop = false → s.thread.Works s.halted →
      s.signalled = true → s.count = 0 → Expected s
  | interrupted : s.creator = .stopping false → s.shouldStop = true → s.thread.Interrupted →
      s.signalled = true → s.count = 0 → Expected s
  | done (res : ℤ) : s.creator = .done res → s.thread = .none →
      (s.signalled = false → res ≠ creationFailed → res = s.errorCode ∧ s.halted = true) →
      s.count = 0 → Expected s

theorem Expected.sound {s : System} (h : Expected s) : FinishSound s := by
  cases h <;> constructor <;> grind

/-- **An orderly step leads to an expected state.** -/
theorem Expected.step {s s' : System} {a : Action} (h : Expected s) (hstep : Step a s s')
    (horderly : Orderly s a) : Expected s' := by
  cases hstep with
  | trylock hc =>
      cases h with
      | unlocked _ ht hn => exact .locked rfl ht hn
      | _ => simp_all
  | busy _ => exact h
  | initFails hc =>
      cases h with
      | locked _ ht hn => exact .unlocked rfl ht hn
      | _ => simp_all
  | createFails hc =>
      cases h with
      | locked _ ht hn => exact .done creationFailed rfl ht (fun _ hne => (hne rfl).elim) hn
      | _ => simp_all
  | create hc =>
      cases h with
      | locked _ ht hn => exact .running rfl rfl trivial hn
      | _ => simp_all
  | signal _ =>
      cases h with
      | unlocked hc ht hn => exact .unlocked hc ht hn
      | locked hc ht hn => exact .locked hc ht hn
      | running hc hs ht hn => exact .running hc hs ht hn
      | returned hc hs ht hh hn => exact .returned hc hs ht hh hn
      | raised hc hs ht hh hn => exact .raised hc hs ht hh hn
      | taken hc hs ht hh hn => exact .taken hc hs ht hh hn
      | stopped hc hs ht hh hn => exact .stopped hc hs ht hh hn
      | gaveUp hc hs ht _ hn => exact .gaveUp hc hs ht rfl hn
      | interrupted hc hs ht _ hn => exact .interrupted hc hs ht rfl hn
      | done res hc ht _ hn => exact .done res hc ht (fun h => by simp at h) hn
  | takeToken hc hpos =>
      cases h with
      | raised _ hs ht hh hn => exact .taken rfl hs ht hh (Nat.succ.inj (hpos.symm.trans hn))
      | _ => simp_all
  | giveUp hc hsig =>
      cases h with
      | running _ hs ht hn => exact .gaveUp rfl hs ht hsig hn
      | returned _ _ ht => exact (horderly (by rw [ht]; trivial)).elim
      | raised _ _ ht => exact (horderly (by rw [ht]; trivial)).elim
      | _ => simp_all
  | stop hc =>
      cases h with
      | taken hc' _ ht hh hn =>
          obtain rfl := Creator.woken.inj (hc.symm.trans hc')
          exact .stopped rfl rfl (.inl ht) hh hn
      | gaveUp hc' _ ht hsig hn =>
          obtain rfl := Creator.woken.inj (hc.symm.trans hc')
          refine .interrupted rfl rfl ?_ hsig hn
          cases hthread : s.thread <;> simp_all [Thread.Works, Thread.Interrupted]
      | _ => simp_all
  | join hc ht =>
      cases h with
      | stopped hc' _ ht' hh hn =>
          refine .done _ rfl rfl (fun _ _ => ⟨?_, hh⟩) hn
          simpa [ht] using ht'
      | interrupted _ _ _ hsig hn => exact .done _ rfl rfl (fun h => by simp [hsig] at h) hn
      | _ => simp_all
  | unlock hc =>
      cases h with
      | done _ _ ht _ hn => exact .unlocked rfl ht hn
      | _ => simp_all
  | enter ht =>
      cases h with
      | running hc hs _ hn => exact .running hc hs (by simp [hs, Thread.Works]) hn
      | gaveUp hc hs _ hsig hn => exact .gaveUp hc hs (by simp [hs, Thread.Works]) hsig hn
      | interrupted hc hs _ hsig hn =>
          exact .interrupted hc hs (by simp [hs, Thread.Interrupted]) hsig hn
      | _ => simp_all
  | testStop ht =>
      cases h with
      | running hc hs _ hn => exact .running hc hs (by simp [hs, Thread.Works]) hn
      | gaveUp hc hs _ hsig hn => exact .gaveUp hc hs (by simp [hs, Thread.Works]) hsig hn
      | interrupted hc hs _ hsig hn =>
          exact .interrupted hc hs (by simp [hs, Thread.Interrupted]) hsig hn
      | _ => simp_all
  | cycleGoesOn ht =>
      cases h with
      | running hc hs _ hn => exact .running hc hs trivial hn
      | gaveUp hc hs _ hsig hn => exact .gaveUp hc hs trivial hsig hn
      | interrupted hc hs _ hsig hn => exact .interrupted hc hs trivial hsig hn
      | _ => simp_all
  | cycleHalts code ht =>
      cases h with
      | running hc hs _ hn => exact .running hc hs rfl hn
      | gaveUp hc hs _ hsig hn => exact .gaveUp hc hs rfl hsig hn
      | interrupted hc hs _ hsig hn => exact .interrupted hc hs trivial hsig hn
      | _ => simp_all
  | lastTest ht =>
      cases h with
      | running hc hs hw hn =>
          rw [ht] at hw
          exact .returned hc hs (by simp [hs]) hw hn
      | gaveUp hc => exact (horderly hc).elim
      | interrupted hc hs _ hsig hn =>
          exact .interrupted hc hs (by simp [hs, Thread.Interrupted]) hsig hn
      | _ => simp_all
  | @finish _ res ht =>
      cases h with
      | returned hc hs ht' hh hn =>
          obtain rfl := Thread.returned.inj (ht.symm.trans ht')
          have hne : (s.errorCode : ℤ) ≠ forcedStop := by unfold forcedStop; omega
          exact .raised hc hs rfl hh (by simp [hne, hn])
      | interrupted hc hs hi hsig hn =>
          rw [ht] at hi
          exact .interrupted hc hs hi hsig (by simp [show res = forcedStop from hi, hn])
      | _ => simp_all [Thread.Works]
  | exit ht hstop =>
      cases h with
      | stopped hc hs ht' hh hn =>
          refine .stopped hc hs (.inr ?_) hh hn
          simpa [ht] using ht'
      | interrupted hc hs hi hsig hn => exact .interrupted hc hs trivial hsig hn
      | _ => simp_all

theorem Reaches.expected {s : System} (h : Reaches Orderly s) : Expected s := by
  induction h with
  | initial => exact .unlocked rfl rfl rfl
  | step _ hstep horderly ih => exact ih.step hstep horderly

/-- **The finish semaphore is sound in orderly runs**, over any number of invocations and
under any interleaving of creator, thread and signals. -/
theorem finish_lock_sound {s : System} (h : Reaches Orderly s) : FinishSound s :=
  h.expected.sound

/-- An invocation whose program halts with error code 3. -/
theorem finish_lock_sound_undisturbed :
    ∃ s, Reaches Orderly s ∧ s.creator = .done 3 ∧ s.signalled = false ∧ FinishSound s := by
  have h₁ : Reaches Orderly _ := .step .initial (.trylock rfl) trivial
  have h₂ := (h₁.step (.create rfl) trivial).step (.enter rfl) trivial
  have h₃ := (h₂.step (.testStop rfl) trivial).step (.cycleHalts 3 rfl) trivial
  have h₄ := (h₃.step (.lastTest rfl) nofun).step (.finish rfl) trivial
  have h₅ := (h₄.step (.takeToken rfl rfl) trivial).step (.stop rfl) trivial
  have h₆ := (h₅.step (.exit rfl rfl) trivial).step (.join rfl rfl) trivial
  exact ⟨_, h₆, rfl, rfl, finish_lock_sound h₆⟩

/-! ## Disorderly steps -/

/-- The creator has given up, and the thread raises the semaphore all the same. -/
inductive Tainted (s : System) : Prop
  | returned (res : ℤ) : s.creator = .woken false ∨ s.creator = .stopping false →
      s.thread = .returned res → res ≠ forcedStop → s.count = 0 → Tainted s
  | raised (res : ℤ) : s.creator = .woken false ∨ s.creator = .stopping false →
      s.thread = .parked res ∨ s.thread = .exited res → s.count = 1 → Tainted s
  | ended : s.creator ≠ .waiting → (∀ token, s.creator ≠ .woken token) →
      (∀ token, s.creator ≠ .stopping token) → s.creator ≠ .locked → s.thread = .none →
      s.count = 1 → Tainted s

theorem Expected.disorderly {s s' : System} {a : Action} (h : Expected s) (hstep : Step a s s')
    (hdis : ¬ Orderly s a) : Tainted s' := by
  have hcode : (s.errorCode : ℤ) ≠ forcedStop := by unfold forcedStop; omega
  cases hstep with
  | giveUp hc hsig =>
      cases h with
      | returned _ _ ht _ hn => exact .returned _ (.inl rfl) ht hcode hn
      | raised _ _ ht _ hn => exact .raised _ (.inl rfl) (.inl ht) hn
      | running _ _ ht =>
          refine (hdis ?_).elim
          cases hthread : s.thread <;> simp_all [Orderly, Thread.Works, Thread.PastLastTest]
      | _ => simp_all
  | lastTest ht =>
      have hc : s.creator = .woken false := not_not.mp hdis
      cases h with
      | gaveUp _ hs _ _ hn => exact .returned _ (.inl hc) (by simp [hs]) hcode hn
      | _ => simp_all
  | _ => exact (hdis trivial).elim

theorem Tainted.step {s s' : System} {a : Action} (h : Tainted s) (hstep : Step a s s')
    (hlock : a ≠ .trylock) : Tainted s' := by
  cases h with
  | returned res hc ht hne hn =>
      cases hstep with
      | busy _ => exact .returned res hc ht hne hn
      | signal _ => exact .returned res hc ht hne hn
      | stop hc' =>
          refine .returned res (.inr ?_) ht hne hn
          simp_all
      | finish ht' =>
          obtain rfl := Thread.returned.inj (ht.symm.trans ht')
          exact .raised res hc (.inl rfl) (by simp [hne, hn])
      | _ => simp_all
  | raised res hc ht hn =>
      cases hstep with
      | busy _ => exact .raised res hc ht hn
      | signal _ => exact .raised res hc ht hn
      | stop hc' =>
          refine .raised res (.inr ?_) ht hn
          simp_all
      | exit ht' _ =>
          refine .raised res hc (.inr ?_) hn
          simp_all
      | join _ _ => exact .ended nofun nofun nofun nofun rfl hn
      | _ => simp_all
  | ended hw hwoken hstop hlocked ht hn =>
      cases hstep with
      | busy _ => exact .ended hw hwoken hstop hlocked ht hn
      | signal _ => exact .ended hw hwoken hstop hlocked ht hn
      | unlock _ => exact .ended nofun nofun nofun nofun ht hn
      | _ => simp_all

/-- **A disorderly step leaves the semaphore raised** when its invocation is over. -/
theorem disorderly_leaves_token {s s₁ s₂ : System} {a : Action} (h : Reaches Orderly s)
    (hstep : Step a s s₁) (hdis : ¬ Orderly s a)
    (hrest : Relation.ReflTransGen (fun s s' => ∃ a, a ≠ .trylock ∧ Step a s s') s₁ s₂)
    (hfree : s₂.creator = .unlocked) : s₂.count = 1 := by
  have htainted : Tainted s₂ := by
    clear hfree
    induction hrest with
    | refl => exact h.expected.disorderly hstep hdis
    | tail _ hnext ih =>
        obtain ⟨a', hlock, hstep'⟩ := hnext
        exact ih.step hstep' hlock
  cases htainted with
  | returned res hc => simp_all
  | raised res hc => simp_all
  | ended _ _ _ _ _ hn => exact hn

/-- A fatal signal reaches the creator while the program runs; the program halts, and the
thread looks at the stop flag, before the flag is set.  The semaphore stays raised, and
stops the program of the next invocation, whose creator has received no signal. -/
theorem token_carries_over :
    (∃ s, Reaches (fun _ _ => True) s ∧ s.creator = .unlocked ∧ s.count = 1) ∧
    ∃ s, Reaches (fun _ _ => True) s ∧ s.creator = .done forcedStop ∧ s.signalled = false ∧
      s.halted = false ∧ ¬ FinishSound s := by
  have h₁ : Reaches (fun _ _ => True) _ := .step .initial (.trylock rfl) trivial
  have h₂ := (h₁.step (.create rfl) trivial).step (.enter rfl) trivial
  have h₃ := (h₂.step (.testStop rfl) trivial).step (.signal nofun) trivial
  have h₄ := (h₃.step (.giveUp rfl rfl) trivial).step (.cycleHalts 0 rfl) trivial
  have h₅ := (h₄.step (.lastTest rfl) trivial).step (.stop rfl) trivial
  have h₆ := (h₅.step (.finish rfl) trivial).step (.exit rfl rfl) trivial
  have h₇ := (h₆.step (.join rfl rfl) trivial).step (.unlock rfl) trivial
  refine ⟨⟨_, h₇, rfl, rfl⟩, ?_⟩
  -- the next invocation takes the token at once
  have h₈ := (h₇.step (.trylock rfl) trivial).step (.create rfl) trivial
  have h₉ := (h₈.step (.enter rfl) trivial).step (.testStop rfl) trivial
  have h₁₀ := (h₉.step (.takeToken rfl rfl) trivial).step (.stop rfl) trivial
  have h₁₁ := (h₁₀.step (.cycleGoesOn rfl) trivial).step (.testStop rfl) trivial
  have h₁₂ := (h₁₁.step (.lastTest rfl) trivial).step (.finish rfl) trivial
  have h₁₃ := (h₁₂.step (.exit rfl rfl) trivial).step (.join rfl rfl) trivial
  refine ⟨_, h₁₃, rfl, rfl, rfl, fun hsound => ?_⟩
  exact absurd (hsound.result _ rfl rfl (by decide)).2 (by decide)

end Bispe.Threads
