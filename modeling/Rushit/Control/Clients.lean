import Rushit.Control.Model
import Mathlib.Data.List.Basic
/-!
# What a client has on its connection

A client writes two messages: the secret, before it waits for the magic,
and the magic, once it has joined its workers. The server answers after
its first read, which takes the whole secret, so what it finds on the
connection later is the magic of a client that has joined its workers
(`ClientInv.joined_of_recvMagic`).
-/

namespace Rushit

namespace Control

variable {cfg : Config} {s s' : System} {ls : List Label} {l : Label} {c w n : ℕ}

/-! ## Messages -/

@[simp] theorem controlPortSecret_length : controlPortSecret.length = secretSize := rfl

@[simp] theorem sendMagic_length (magic : UInt32) : (sendMagic magic).length = 4 := rfl

/-- The magic survives the wire. -/
theorem recvMagic_sendMagic (magic : UInt32) : recvMagic (sendMagic magic) = some magic := by
  have hlt := magic.toNat_lt
  refine congrArg some (UInt32.toNat_inj.mp ?_)
  simp only [UInt32.toNat_ofNat', UInt8.toNat_ofNat']
  omega

/-- A read takes a message that fits whole, and only that. -/
theorem readMessage_of_le {size : ℕ} {done : Bool} {m : Message} {ms : List Message}
    (h : m.length ≤ size) : readMessage size done (m :: ms) = some (m, ms) := by
  simp [readMessage, h, List.take_of_length_le h]

/-! ## The history of a run -/

/-- The connections that have been read from. -/
def heard (ls : List Label) : List ℕ := (firstReads ls).map Prod.fst

theorem firstReads_append (ls : List Label) (l : Label) :
    firstReads (ls ++ [l]) = firstReads ls ++ l.firstRead?.toList := by
  simp [firstReads, List.filterMap_append, List.filterMap_cons]
  cases l.firstRead? <;> rfl

theorem firstReads_append_none (hl : l.firstRead? = none) :
    firstReads (ls ++ [l]) = firstReads ls := by
  simp [firstReads_append, hl]

theorem heard_append_none (hl : l.firstRead? = none) : heard (ls ++ [l]) = heard ls := by
  simp [heard, firstReads_append_none hl]

theorem mem_heard_append_none (hl : l.firstRead? = none) :
    c ∈ heard (ls ++ [l]) ↔ c ∈ heard ls := by
  rw [heard_append_none hl]

theorem heard_append_firstRead {d : ℕ} {bytes : Message} :
    heard (ls ++ [.server (.firstRead d bytes)]) = heard ls ++ [d] := by
  simp [heard, firstReads_append, Label.firstRead?]

/-- Client `c` has joined its `n` workers. -/
def Joined (ls : List Label) (c n : ℕ) : Prop :=
  ∀ w < n, Label.client c (.main (.join w)) ∈ ls

theorem Joined.append (h : Joined ls c n) (l : Label) : Joined (ls ++ [l]) c n :=
  fun w hw => List.mem_append_left _ (h w hw)

/-! ## Main threads -/

section Main

variable {m m' : Main} {ml : Main.Label}

/-- **What a step of a main thread can do** to its phase and to what it
has joined. -/
theorem Main.step_cases (h : m.step n ml m') :
    (m'.phase = m.phase ∧ m'.joined = m.joined ∧ m.phase ≠ .exited) ∨
      (m.phase = .create ∧ m'.phase = .wait ∧ m'.joined = m.joined) ∨
      (m.phase = .stop ∧ ml = .join m.joined ∧ m'.phase = .stop ∧ m'.joined = m.joined + 1) ∨
      (m.phase = .stop ∧ m.joined = n ∧ m'.phase = .stopped ∧ m'.joined = m.joined) := by
  cases ml with
  | create w =>
    obtain ⟨hphase, -, -, rfl⟩ := h
    exact .inl ⟨rfl, rfl, by rw [hphase]; nofun⟩
  | ready =>
    obtain ⟨hphase, -, rfl⟩ := h
    exact .inr (.inl ⟨hphase, rfl, rfl⟩)
  | tell w =>
    obtain ⟨hphase, -, -, rfl⟩ := h
    exact .inl ⟨rfl, rfl, by rw [hphase]; nofun⟩
  | ends w =>
    obtain ⟨hphase, -, -, rfl⟩ := h
    exact .inl ⟨rfl, rfl, hphase⟩
  | join w =>
    obtain ⟨hphase, -, rfl, -, -, rfl⟩ := h
    exact .inr (.inr (.inl ⟨hphase, rfl, hphase, rfl⟩))
  | stopped =>
    obtain ⟨hphase, -, hjoined, rfl⟩ := h
    exact .inr (.inr (.inr ⟨hphase, hjoined, rfl, rfl⟩))

theorem Main.step_not_exited (h : m.step n ml m') : m.phase ≠ .exited := by
  intro hexit
  rcases Main.step_cases h with ⟨-, -, hne⟩ | ⟨hm, -⟩ | ⟨hm, -⟩ | ⟨hm, -⟩
  · exact hne hexit
  all_goals rw [hexit] at hm; cases hm

/-- A worker that is joined is the next one, and only `stop_worker_threads`
joins. -/
theorem Main.step_joined (h : m.step n ml m') :
    m'.joined = m.joined ∨ ml = .join m.joined ∧ m'.joined = m.joined + 1 := by
  rcases Main.step_cases h with ⟨-, hj, -⟩ | ⟨-, -, hj⟩ | ⟨-, hl, -, hj⟩ | ⟨-, -, -, hj⟩
  · exact .inl hj
  · exact .inl hj
  · exact .inr ⟨hl, hj⟩
  · exact .inl hj

/-- `run_worker_threads` is over when all workers are joined. -/
theorem Main.step_stopped (h : m.step n ml m') (hm : m.phase = .stopped → m.joined = n) :
    m'.phase = .stopped → m'.joined = n := by
  intro hstopped
  rcases Main.step_cases h with ⟨hp, hj, -⟩ | ⟨-, hp, -⟩ | ⟨-, -, hp, -⟩ | ⟨-, hall, -, hj⟩
  · rw [hj]
    exact hm (hp.symm.trans hstopped)
  · -- the phase reached is another one
    rw [hp] at hstopped; cases hstopped
  · rw [hp] at hstopped; cases hstopped
  · rw [hj, hall]

end Main

/-! ## The invariant -/

/-- What is under way to the server, by how far the client is and
whether the server has read from the connection. -/
def InFlight (magic : UInt32) (heard : Prop) : Client.Ctrl → List Message → Prop
  | .unconnected, q | .connected, q | .established, q => q = []
  | .awaiting, q => q = [] ∨ q = [controlPortSecret] ∧ ¬ heard
  | .notified, q | .closed, q => q = [] ∨ q = [sendMagic magic]

/-- The client has not written to its connection yet. -/
def Client.Ctrl.early : Client.Ctrl → Prop
  | .unconnected | .connected => True
  | _ => False

/-- The client has sent its notification. -/
def Client.Ctrl.late : Client.Ctrl → Prop
  | .notified | .closed => True
  | _ => False

/-- What holds of client `c` and its connection after the steps `ls`. -/
structure ClientInv (opts : ClientOptions) (ls : List Label) (c : ℕ) (cl : Client)
    (conn : Conn) : Prop where
  inFlight : InFlight opts.magic (c ∈ heard ls) cl.ctrl conn.toServer
  /-- The server has read the end of file of a client that had not
  written. -/
  early : cl.ctrl.early → c ∈ heard ls → cl.main.phase = .exited
  late : cl.ctrl.late → Joined ls c opts.numThreads
  answered : conn.toPeer ≠ [] → c ∈ heard ls
  done : conn.peerDone = true → cl.main.phase = .exited ∨ cl.ctrl = .closed
  joined : Joined ls c cl.main.joined
  stopped : cl.main.phase = .stopped → cl.main.joined = opts.numThreads

variable {opts : ClientOptions} {cl cl' : Client} {conn conn' : Conn}

theorem ClientInv.start (opts : ClientOptions) (c : ℕ) :
    ClientInv opts [] c .start .start where
  inFlight := rfl
  early := by simp [heard, firstReads]
  late := by simp [Client.start, Client.Ctrl.late]
  answered := by simp [Conn.start]
  done := by simp [Conn.start]
  joined := by simp [Joined, Client.start, Main.start]
  stopped := by simp [Client.start, Main.start]

/-- At most one message is under way. -/
theorem InFlight.eq {magic : UInt32} {p : Prop} {ctrl : Client.Ctrl} {q : List Message}
    (h : InFlight magic p ctrl q) :
    q = [] ∨ (q = [controlPortSecret] ∧ ¬ p ∧ ctrl = .awaiting) ∨
      (q = [sendMagic magic] ∧ ctrl.late) := by
  cases ctrl with
  | unconnected | connected | established => exact .inl h
  | awaiting =>
    rcases h with h | ⟨h, hp⟩
    · exact .inl h
    · exact .inr (.inl ⟨h, hp, rfl⟩)
  | notified | closed =>
    rcases h with h | h
    · exact .inl h
    · exact .inr (.inr ⟨h, trivial⟩)

/-- Nothing under way fits every stage. -/
theorem InFlight.nil {magic : UInt32} {p : Prop} {ctrl : Client.Ctrl} :
    InFlight magic p ctrl [] := by
  cases ctrl <;> simp [InFlight]

/-- The same is under way on the connection. -/
structure SameTraffic (conn conn' : Conn) : Prop where
  toServer : conn'.toServer = conn.toServer
  toPeer : conn'.toPeer = conn.toPeer
  peerDone : conn'.peerDone = conn.peerDone

/-- A step that is no first read from the connection, and leaves the
client and what is under way alone. -/
theorem ClientInv.other (h : ClientInv opts ls c cl conn)
    (hl : c ∈ heard (ls ++ [l]) ↔ c ∈ heard ls) (hsame : SameTraffic conn conn') :
    ClientInv opts (ls ++ [l]) c cl conn' where
  inFlight := by rw [hsame.toServer, hl]; exact h.inFlight
  early := by rw [hl]; exact h.early
  late hlate := (h.late hlate).append l
  answered := by rw [hsame.toPeer, hl]; exact h.answered
  done := by rw [hsame.peerDone]; exact h.done
  joined := h.joined.append l
  stopped := h.stopped

/-! ## Steps of the server on the connection -/

/-- The first read takes what is under way whole. -/
theorem ClientInv.firstRead {bytes : Message} {rest : List Message}
    (h : ClientInv opts ls c cl conn)
    (hread : readMessage bufSize conn.peerDone conn.toServer = some (bytes, rest))
    (hto : conn'.toServer = rest) (hdone : conn'.peerDone = conn.peerDone) :
    ClientInv opts (ls ++ [.server (.firstRead c bytes)]) c cl conn' := by
  have hheard : c ∈ heard (ls ++ [.server (.firstRead c bytes)]) := by
    simp [heard_append_firstRead]
  -- at most one message is under way, and it fits the buffer
  have hrest : rest = [] := by
    rcases h.inFlight.eq with hq | ⟨hq, -⟩ | ⟨hq, -⟩ <;> rw [hq] at hread
    · simp only [readMessage] at hread
      split at hread <;> simp_all
    · rw [readMessage_of_le (by decide)] at hread
      simp_all
    · rw [readMessage_of_le (by simp [bufSize])] at hread
      simp_all
  refine ⟨?_, fun hearly _ => ?_, fun hlate => (h.late hlate).append _, fun _ => hheard, ?_,
    h.joined.append _, h.stopped⟩
  · rw [hto, hrest]
    exact .nil
  · -- nothing is under way yet: the read has seen the end of file
    have hq : conn.toServer = [] := by
      have := h.inFlight
      cases hctrl : cl.ctrl <;> rw [hctrl] at this hearly <;>
        first | exact this | exact hearly.elim
    have hend : conn.peerDone = true := by
      by_contra hne
      simp [hq, readMessage, hne] at hread
    rcases h.done hend with hexit | hclosed
    · exact hexit
    · rw [hclosed] at hearly
      exact hearly.elim
  · rw [hdone]
    exact h.done

/-- A later read is of the notification: **the client has joined its
workers**. -/
theorem ClientInv.joined_of_recvMagic {bytes : Message} {rest : List Message} {magic : UInt32}
    (h : ClientInv opts ls c cl conn) (hheard : c ∈ heard ls)
    (hread : readMessage 4 conn.peerDone conn.toServer = some (bytes, rest))
    (hmagic : recvMagic bytes = some magic) :
    rest = [] ∧ Joined ls c opts.numThreads := by
  rcases h.inFlight.eq with hq | ⟨-, hno, -⟩ | ⟨hq, hlate⟩
  · -- the end of file is no magic
    rw [hq] at hread
    simp only [readMessage] at hread
    split at hread
    · obtain ⟨rfl, rfl⟩ := Prod.mk.inj (Option.some.inj hread)
      simp [recvMagic] at hmagic
    · cases hread
  · -- the secret has been read
    exact absurd hheard hno
  · rw [hq, readMessage_of_le (by simp)] at hread
    exact ⟨(Prod.mk.inj (Option.some.inj hread)).2.symm, h.late hlate⟩

/-- The server takes the notification. -/
theorem ClientInv.taken (h : ClientInv opts ls c cl conn)
    (hl : c ∈ heard (ls ++ [l]) ↔ c ∈ heard ls) :
    ClientInv opts (ls ++ [l]) c cl { conn with toServer := [] } where
  inFlight := .nil
  early := by rw [hl]; exact h.early
  late hlate := (h.late hlate).append l
  answered := by rw [hl]; exact h.answered
  done := h.done
  joined := h.joined.append l
  stopped := h.stopped

/-- The server answers a connection it has read from. -/
theorem ClientInv.greeted {m : Message} (h : ClientInv opts ls c cl conn)
    (hl : c ∈ heard (ls ++ [l]) ↔ c ∈ heard ls) (hheard : c ∈ heard ls) :
    ClientInv opts (ls ++ [l]) c cl { conn with toPeer := conn.toPeer ++ [m] } where
  inFlight := by rw [hl]; exact h.inFlight
  early := by rw [hl]; exact h.early
  late hlate := (h.late hlate).append l
  answered _ := hl.mpr hheard
  done := h.done
  joined := h.joined.append l
  stopped := h.stopped

/-! ## Steps of the client -/

/-- A client whose side of the connection is gone has exited, if it has
not closed it. -/
theorem ClientInv.exited_of_done (h : ClientInv opts ls c cl conn) (hctrl : cl.ctrl ≠ .closed)
    (hdone : conn.peerDone = true) : cl.main.phase = .exited :=
  (h.done hdone).resolve_right hctrl

/-- The secret is the first message on the connection, and the server has
not read from it. -/
theorem ClientInv.writeSecret (h : ClientInv opts ls c cl conn) (hstart : cl.main.phase = .start)
    (hctrl : cl.ctrl = .connected) :
    ClientInv opts (ls ++ [.client c .writeSecret]) c { cl with ctrl := .awaiting }
      { conn with toServer := conn.toServer ++ [controlPortSecret] } := by
  have hheard : heard (ls ++ [.client c .writeSecret]) = heard ls := heard_append_none rfl
  have hq : conn.toServer = [] := by
    have hflight := h.inFlight
    rw [hctrl] at hflight
    exact hflight
  -- a client that was read from this early has exited
  have hnot : c ∉ heard ls := by
    intro hmem
    have hexit := h.early (by rw [hctrl]; trivial) hmem
    rw [hstart] at hexit
    cases hexit
  exact ⟨.inr ⟨by simp [hq], by rw [hheard]; exact hnot⟩, fun hearly => hearly.elim,
    fun hlate => hlate.elim, by rw [hheard]; exact h.answered,
    fun hdone => .inl (h.exited_of_done (by rw [hctrl]; nofun) hdone), h.joined.append _, h.stopped⟩

/-- The magic comes back from a server that has read the secret. -/
theorem ClientInv.recvMagic {rest : List Message} {magic : UInt32} {bytes : Message}
    (h : ClientInv opts ls c cl conn) (hstart : cl.main.phase = .start)
    (hctrl : cl.ctrl = .awaiting)
    (hread : readMessage 4 false conn.toPeer = some (bytes, rest)) :
    ClientInv opts (ls ++ [.client c .recvMagic]) c
      (if magic = opts.magic then ⟨{ cl.main with phase := .create }, .established⟩
        else { cl with main := { cl.main with phase := .exited } })
      { conn with toPeer := rest, peerDone := conn.peerDone || (magic ≠ opts.magic) } := by
  have hheard : heard (ls ++ [.client c .recvMagic]) = heard ls := heard_append_none rfl
  -- the server answers only those it has read from
  have hmem : c ∈ heard ls := by
    refine h.answered fun hnil => ?_
    rw [hnil] at hread
    cases hread
  have hq : conn.toServer = [] := by
    have hflight := h.inFlight
    rw [hctrl] at hflight
    rcases hflight with hq | ⟨-, hnot⟩
    · exact hq
    · exact absurd hmem hnot
  by_cases hmagic : magic = opts.magic
  · rw [if_pos hmagic]
    refine ⟨hq, fun hearly => hearly.elim, fun hlate => hlate.elim,
      fun _ => by rw [hheard]; exact hmem, fun hdone => ?_, h.joined.append _,
      fun hphase => by cases hphase⟩
    have hdone : conn.peerDone = true := by simpa [hmagic] using hdone
    have hexit := h.exited_of_done (by rw [hctrl]; nofun) hdone
    rw [hstart] at hexit
    cases hexit
  · -- another magic: `LOG_FATAL`
    rw [if_neg hmagic]
    refine ⟨?_, fun _ _ => rfl, fun hlate => ?_, fun _ => by rw [hheard]; exact hmem,
      fun _ => .inl rfl, h.joined.append _, fun hphase => by cases hphase⟩
    · show InFlight opts.magic _ cl.ctrl conn.toServer
      rw [hq]
      exact .nil
    · have hlate : cl.ctrl.late := hlate
      rw [hctrl] at hlate
      exact hlate.elim

/-- The main thread and its workers leave the connection alone. -/
theorem ClientInv.main {m' : Main} {ml : Main.Label} (h : ClientInv opts ls c cl conn)
    (hmain : cl.main.step opts.numThreads ml m') :
    ClientInv opts (ls ++ [.client c (.main ml)]) c { cl with main := m' } conn := by
  have hheard : heard (ls ++ [.client c (.main ml)]) = heard ls := heard_append_none rfl
  have hexit := Main.step_not_exited hmain
  refine ⟨by rw [hheard]; exact h.inFlight, fun hearly hmem => ?_,
    fun hlate => (h.late hlate).append _, by rw [hheard]; exact h.answered,
    fun hdone => .inr ((h.done hdone).resolve_left hexit), ?_, Main.step_stopped hmain h.stopped⟩
  · rw [hheard] at hmem
    exact absurd (h.early hearly hmem) hexit
  · show Joined (ls ++ [_]) c m'.joined
    rcases Main.step_joined hmain with hsame | ⟨rfl, hnext⟩
    · rw [hsame]
      exact h.joined.append _
    · -- one more worker is joined by this very step
      rw [hnext]
      intro w hw
      rcases Nat.lt_succ_iff_lt_or_eq.mp hw with hlt | rfl
      · exact List.mem_append_left _ (h.joined w hlt)
      · exact List.mem_append_right _ List.mem_cons_self

/-- The notification is sent when the workers are joined. -/
theorem ClientInv.notify (h : ClientInv opts ls c cl conn) (hstopped : cl.main.phase = .stopped)
    (hctrl : cl.ctrl = .established) :
    ClientInv opts (ls ++ [.client c .notify]) c { cl with ctrl := .notified }
      { conn with toServer := conn.toServer ++ [sendMagic opts.magic] } := by
  have hheard : heard (ls ++ [.client c .notify]) = heard ls := heard_append_none rfl
  have hq : conn.toServer = [] := by
    have hflight := h.inFlight
    rw [hctrl] at hflight
    exact hflight
  refine ⟨.inr (by simp [hq]), fun hearly => hearly.elim, fun _ => ?_,
    by rw [hheard]; exact h.answered,
    fun hdone => .inl (h.exited_of_done (by rw [hctrl]; nofun) hdone), h.joined.append _, h.stopped⟩
  have hjoined := h.joined
  rw [h.stopped hstopped] at hjoined
  exact hjoined.append _

/-- **Every step of a client keeps the invariant.** -/
theorem ClientInv.step {listening : Bool} {l : Client.Label} (h : ClientInv opts ls c cl conn)
    (hs : cl.step opts listening conn l cl' conn') :
    ClientInv opts (ls ++ [.client c l]) c cl' conn' := by
  have hheard : heard (ls ++ [.client c l]) = heard ls := heard_append_none rfl
  have hflight := h.inFlight
  cases l with
  | connect =>
    obtain ⟨-, hctrl, -, -, rfl, rfl⟩ := hs
    rw [hctrl] at hflight
    have hearly := h.early (by rw [hctrl]; trivial)
    exact ⟨hflight, fun _ => by rw [hheard]; exact hearly, fun hlate => hlate.elim,
      by rw [hheard]; exact h.answered,
      fun hdone => .inl (h.exited_of_done (by rw [hctrl]; nofun) hdone), h.joined.append _,
      h.stopped⟩
  | writeSecret =>
    obtain ⟨hstart, hctrl, rfl, rfl⟩ := hs
    exact h.writeSecret hstart hctrl
  | recvMagic =>
    obtain ⟨hstart, hctrl, bytes, rest, magic, hread, -, rfl, rfl⟩ := hs
    exact h.recvMagic hstart hctrl hread
  | main l =>
    obtain ⟨rfl, m', hmain, rfl⟩ := hs
    exact h.main hmain
  | wake =>
    obtain ⟨hwait, rfl, rfl⟩ := hs
    have hlive : cl.main.phase ≠ .exited := by rw [hwait]; nofun
    refine ⟨by rw [hheard]; exact hflight, fun hearly hmem => ?_,
      fun hlate => (h.late hlate).append _, by rw [hheard]; exact h.answered,
      fun hdone => .inr ((h.done hdone).resolve_left hlive), h.joined.append _,
      fun hphase => by cases hphase⟩
    rw [hheard] at hmem
    exact absurd (h.early hearly hmem) hlive
  | notify =>
    obtain ⟨hstopped, hctrl, rfl, rfl⟩ := hs
    exact h.notify hstopped hctrl
  | close =>
    obtain ⟨-, hctrl, rfl, rfl⟩ := hs
    rw [hctrl] at hflight
    exact ⟨hflight, fun hearly => hearly.elim,
      fun _ => (h.late (by rw [hctrl]; trivial)).append _, by rw [hheard]; exact h.answered,
      fun _ => .inr rfl, h.joined.append _, h.stopped⟩
  | exit =>
    obtain ⟨rfl, rfl⟩ := hs
    exact ⟨by rw [hheard]; exact hflight, fun _ _ => rfl,
      fun hlate => (h.late hlate).append _, by rw [hheard]; exact h.answered,
      fun _ => .inl rfl, h.joined.append _, fun hphase => by cases hphase⟩

end Control

end Rushit
