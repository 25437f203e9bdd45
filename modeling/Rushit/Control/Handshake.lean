import Rushit.Common.Run
import Rushit.Control.Clients
/-!
# Until the clients are done

The server keeps, in `client_fds`, the connections whose first read
matched the secret, counts the others, and goes past the `i`-th of
`client_fds` when it has received the magic there (`ServerInv`). With
what a client has on its connection this orders the whole run
(`wait_until_done`): what the server waited for was sent after the
workers were joined.
-/

namespace Rushit

namespace Control

variable {cfg : Config} {s s' : System} {ls : List Label} {l : Label} {c i : ℕ}
variable {opts : ServerOptions} {srv srv' : Server} {conn conn' : ℕ → Conn}

/-! ## The invariant of the server -/

/-- The server has taken the connection from the backlog, or dropped it. -/
def Stage.taken : Stage → Prop
  | .accepted | .closed => True
  | _ => False

/-- `control_plane_wait_until_done` is over. -/
def Phase.past : Phase → Prop
  | .stop | .stopped | .exited => True
  | _ => False

/-- The connection that is admitted and not yet in `client_fds`. -/
def Server.Ctrl.greeting : Server.Ctrl → List ℕ
  | .greet c => [c]
  | _ => []

/-- On connection `c` the magic was received after the handshake. -/
def Notified (magic : UInt32) (ls : List Label) (c : ℕ) : Prop :=
  [Label.server (.greet c), .server (.recvMagic c magic)].Sublist ls

/-- And the server returned from waiting after that. -/
def NotifiedBefore (magic : UInt32) (ls : List Label) (c : ℕ) : Prop :=
  [Label.server (.greet c), .server (.recvMagic c magic), .server .waitReturns].Sublist ls

/-- What holds of the server and the connections after the steps `ls`. -/
structure ServerInv (opts : ServerOptions) (ls : List Label) (srv : Server) (conn : ℕ → Conn) :
    Prop where
  admitted : authenticated ls = srv.clientFds ++ srv.ctrl.greeting
  taken : ∀ c ∈ heard ls, (conn c).stage.taken ∧ srv.ctrl ≠ .read c
  nodup : (heard ls).Nodup
  incidents : srv.numIncidents = (rejected ls).length
  greeted : ∀ c ∈ srv.clientFds, Label.server (.greet c) ∈ ls
  full : ∀ i, srv.ctrl = .waitClient i → srv.clientFds.length = opts.numClients
  notified : ∀ i, srv.ctrl = .waitClient i →
    ∀ c ∈ srv.clientFds.take i, Notified opts.magic ls c
  stopping : srv.main.phase = .stop → srv.ctrl = .waitClient opts.numClients
  returned : Label.server .waitReturns ∈ ls → srv.main.phase.past ∧
    srv.ctrl = .waitClient opts.numClients ∧
    ∀ c ∈ srv.clientFds, NotifiedBefore opts.magic ls c

theorem ServerInv.start (opts : ServerOptions) : ServerInv opts [] .start fun _ => .start where
  admitted := rfl
  taken := by simp [heard, firstReads]
  nodup := by simp [heard, firstReads]
  incidents := rfl
  greeted := by simp [Server.start]
  full := by simp [Server.start]
  notified := by simp [Server.start]
  stopping := by simp [Server.start, Main.start]
  returned := by simp

theorem authenticated_append_none (hl : l.firstRead? = none) :
    authenticated (ls ++ [l]) = authenticated ls := by
  simp [authenticated, firstReads_append_none hl]

theorem rejected_append_none (hl : l.firstRead? = none) : rejected (ls ++ [l]) = rejected ls := by
  simp [rejected, firstReads_append_none hl]

theorem Main.step_past {n : ℕ} {m m' : Main} {ml : Main.Label} (h : m.step n ml m')
    (hpast : m.phase.past) : m'.phase.past := by
  rcases Main.step_cases h with ⟨hp, -, -⟩ | ⟨hm, -⟩ | ⟨-, -, hp, -⟩ | ⟨-, -, hp, -⟩
  · rw [hp]
    exact hpast
  · rw [hm] at hpast
    exact hpast.elim
  · rw [hp]
    trivial
  · rw [hp]
    trivial

/-- Only `control_plane_wait_until_done` leads to `stop_worker_threads`. -/
theorem Main.step_stop {n : ℕ} {m m' : Main} {ml : Main.Label} (h : m.step n ml m')
    (hstop : m'.phase = .stop) : m.phase = .stop := by
  rcases Main.step_cases h with ⟨hp, -, -⟩ | ⟨-, hp, -⟩ | ⟨hm, -⟩ | ⟨hm, -⟩
  · exact hp.symm.trans hstop
  · rw [hp] at hstop
    cases hstop
  · exact hm
  · exact hm

/-- A step that leaves the server where it is in
`control_plane_wait_until_done`. -/
theorem ServerInv.other (h : ServerInv opts ls srv conn) (hl : l.firstRead? = none)
    (hl' : l ≠ .server .waitReturns) (hfds : srv'.clientFds = srv.clientFds)
    (hinc : srv'.numIncidents = srv.numIncidents) (hctrl : srv'.ctrl = srv.ctrl)
    (hstop : srv'.main.phase = .stop → srv.main.phase = .stop)
    (hpast : srv.main.phase.past → srv'.main.phase.past)
    (hstage : ∀ c, (conn c).stage.taken → (conn' c).stage.taken) :
    ServerInv opts (ls ++ [l]) srv' conn' where
  admitted := by rw [authenticated_append_none hl, hfds, hctrl]; exact h.admitted
  taken c hc := by
    rw [heard_append_none hl] at hc
    rw [hctrl]
    exact ⟨hstage c (h.taken c hc).1, (h.taken c hc).2⟩
  nodup := by rw [heard_append_none hl]; exact h.nodup
  incidents := by rw [hinc, rejected_append_none hl]; exact h.incidents
  greeted := by
    rw [hfds]
    exact fun c hc => List.mem_append_left _ (h.greeted c hc)
  full := by rw [hctrl, hfds]; exact h.full
  notified := by
    rw [hctrl, hfds]
    exact fun i hi c hc => (h.notified i hi c hc).trans (List.sublist_append_left ..)
  stopping hs := by rw [hctrl]; exact h.stopping (hstop hs)
  returned hret := by
    rcases List.mem_append.mp hret with hret | hret
    · obtain ⟨hp, hc, hall⟩ := h.returned hret
      rw [hctrl, hfds]
      exact ⟨hpast hp, hc, fun c hmem => (hall c hmem).trans (List.sublist_append_left ..)⟩
    · exact absurd (List.mem_singleton.mp hret).symm hl'

/-- While the server waits it has not returned. -/
theorem ServerInv.not_returned (h : ServerInv opts ls srv conn) (hwait : srv.main.phase = .wait) :
    Label.server .waitReturns ∉ ls := by
  intro hret
  have := (h.returned hret).1
  rw [hwait] at this
  exact this

/-- A call inside `control_plane_wait_until_done` that is no first read:
where it leaves the list of the admitted as it is, and goes on to read
from a connection only where it has just accepted it. -/
theorem ServerInv.call (h : ServerInv opts ls srv conn) (hwait : srv.main.phase = .wait)
    (hl : l.firstRead? = none) (hl' : l ≠ .server .waitReturns) (hmain : srv'.main = srv.main)
    (hinc : srv'.numIncidents = srv.numIncidents)
    (hadmitted : srv'.clientFds ++ srv'.ctrl.greeting = srv.clientFds ++ srv.ctrl.greeting)
    (htaken : ∀ c ∈ heard ls, (conn' c).stage.taken ∧ srv'.ctrl ≠ .read c)
    (hgreeted : ∀ c ∈ srv'.clientFds, Label.server (.greet c) ∈ ls ++ [l])
    (hfull : ∀ i, srv'.ctrl = .waitClient i → srv'.clientFds.length = opts.numClients)
    (hnotified : ∀ i, srv'.ctrl = .waitClient i →
      ∀ c ∈ srv'.clientFds.take i, Notified opts.magic (ls ++ [l]) c) :
    ServerInv opts (ls ++ [l]) srv' conn' where
  admitted := by rw [authenticated_append_none hl, hadmitted]; exact h.admitted
  taken := by rw [heard_append_none hl]; exact htaken
  nodup := by rw [heard_append_none hl]; exact h.nodup
  incidents := by rw [hinc, rejected_append_none hl]; exact h.incidents
  greeted := hgreeted
  full := hfull
  notified := hnotified
  stopping hs := by rw [hmain, hwait] at hs; cases hs
  returned hret := by
    rcases List.mem_append.mp hret with hret | hret
    · exact absurd hret (h.not_returned hwait)
    · exact absurd (List.mem_singleton.mp hret).symm hl'

/-- The first read from a connection admits it or counts it. -/
theorem ServerInv.firstRead {bytes : Message} (h : ServerInv opts ls srv conn)
    (hwait : srv.main.phase = .wait) (hctrl : srv.ctrl = .read c)
    (hstage : ∀ d ∈ heard ls, (conn' d).stage.taken) (hc : (conn' c).stage.taken) :
    ServerInv opts (ls ++ [.server (.firstRead c bytes)]) (srv.ctrlAccept c bytes) conn' := by
  -- the server reads only from what it has just accepted
  have hnew : c ∉ heard ls := fun hmem => (h.taken c hmem).2 hctrl
  have hincidents := h.incidents
  have hadmitted : authenticated ls = srv.clientFds := by
    simpa [hctrl, Server.Ctrl.greeting] using h.admitted
  have hreads : firstReads (ls ++ [.server (.firstRead c bytes)]) =
      firstReads ls ++ [(c, bytes)] := firstReads_append ..
  have hphase : (srv.ctrlAccept c bytes).main = srv.main := by
    unfold Server.ctrlAccept; split <;> rfl
  have hfds : (srv.ctrlAccept c bytes).clientFds = srv.clientFds := by
    unfold Server.ctrlAccept; split <;> rfl
  have hnowait : ∀ i, (srv.ctrlAccept c bytes).ctrl ≠ .waitClient i := by
    intro i; unfold Server.ctrlAccept; split <;> simp
  have hnoread : ∀ d, (srv.ctrlAccept c bytes).ctrl ≠ .read d := by
    intro d; unfold Server.ctrlAccept; split <;> simp
  refine ⟨?_, fun d hd => ⟨?_, hnoread d⟩, ?_, ?_, ?_, fun i hi => absurd hi (hnowait i),
    fun i hi => absurd hi (hnowait i), fun hs => ?_, fun hret => ?_⟩
  · -- a match is admitted, and greeted next
    rw [hfds, ← hadmitted]
    by_cases hmatch : matchesSecret bytes = true
    · simp [authenticated, hreads, Server.ctrlAccept, hmatch, Server.Ctrl.greeting]
    · simp [authenticated, hreads, Server.ctrlAccept, hmatch, Server.Ctrl.greeting]
  · rw [heard_append_firstRead] at hd
    rcases List.mem_append.mp hd with hd | hd
    · exact hstage d hd
    · exact (List.mem_singleton.mp hd) ▸ hc
  · rw [heard_append_firstRead]
    refine List.nodup_append.mpr ⟨h.nodup, by simp, fun a ha b hb heq => ?_⟩
    rw [heq, List.mem_singleton.mp hb] at ha
    exact hnew ha
  · -- anything else is one more incident
    by_cases hmatch : matchesSecret bytes = true
    · simpa [rejected, hreads, Server.ctrlAccept, hmatch] using hincidents
    · simpa [rejected, hreads, Server.ctrlAccept, hmatch] using hincidents
  · rw [hfds]
    exact fun d hd => List.mem_append_left _ (h.greeted d hd)
  · rw [hphase, hwait] at hs
    cases hs
  · rcases List.mem_append.mp hret with hret | hret
    · exact absurd hret (h.not_returned hwait)
    · simp at hret

/-- One more of `client_fds` has been heard of. -/
theorem Notified.next (hfds : srv.clientFds[i]? = some c)
    (hgreet : Label.server (.greet c) ∈ ls) {magic : UInt32}
    (hold : ∀ d ∈ srv.clientFds.take i, Notified magic ls d) :
    ∀ d ∈ srv.clientFds.take (i + 1),
      Notified magic (ls ++ [.server (.recvMagic c magic)]) d := by
  intro d hd
  rw [List.take_add_one, hfds] at hd
  rcases List.mem_append.mp hd with hd | hd
  · exact (hold d hd).trans (List.sublist_append_left ..)
  · have hd : d = c := by simpa using hd
    subst hd
    exact (List.singleton_sublist.mpr hgreet).append (List.Sublist.refl [_])

/-- An update of one connection that keeps its stage keeps them all. -/
theorem taken_update {k : Conn} (hk : k.stage = (conn c).stage) {d : ℕ}
    (hd : (conn d).stage.taken) : (Function.update conn c k d).stage.taken := by
  by_cases hdc : d = c
  · subst hdc
    simpa [hk] using hd
  · simpa [hdc] using hd

/-- And so does one that takes it. -/
theorem taken_update_taken {k : Conn} (hk : k.stage.taken) {d : ℕ}
    (hd : (conn d).stage.taken) : (Function.update conn c k d).stage.taken := by
  by_cases hdc : d = c
  · subst hdc
    simpa using hk
  · simpa [hdc] using hd

/-- The magic of a client that is waited for is the server's, or is read
over. -/
theorem ServerInv.recvMagic {magic : UInt32} {rest : List Message}
    (h : ServerInv opts ls srv conn) (hwait : srv.main.phase = .wait)
    (hctrl : srv.ctrl = .waitClient i) (hfds : srv.clientFds[i]? = some c) :
    ServerInv opts (ls ++ [.server (.recvMagic c magic)]) (srv.ctrlWaitClient opts.magic i magic)
      (Function.update conn c { conn c with toServer := rest }) := by
  have hgreeted : ∀ d ∈ srv.clientFds,
      Label.server (.greet d) ∈ ls ++ [.server (.recvMagic c magic)] :=
    fun d hd => List.mem_append_left _ (h.greeted d hd)
  by_cases hmagic : magic = opts.magic
  · subst hmagic
    -- the server goes on to the next of `client_fds`
    have hnext := Notified.next hfds (h.greeted c (List.mem_of_getElem? hfds))
      (h.notified i hctrl)
    simp only [Server.ctrlWaitClient, if_pos]
    refine h.call hwait rfl (by simp) rfl rfl (by simp [hctrl, Server.Ctrl.greeting])
      (fun d hd => ⟨taken_update (by rfl) (h.taken d hd).1, by simp⟩) hgreeted
      (fun _ _ => h.full i hctrl) fun j hj => ?_
    obtain rfl : i + 1 = j := by simpa using hj
    exact hnext
  · -- an unexpected magic: the server reads from the same connection again
    simp only [Server.ctrlWaitClient, if_neg hmagic]
    exact h.call hwait rfl (by simp) rfl rfl rfl
      (fun d hd => ⟨taken_update (by rfl) (h.taken d hd).1, (h.taken d hd).2⟩) hgreeted h.full
      fun j hj d hd => (h.notified j hj d hd).trans (List.sublist_append_left ..)

/-- When the server returns from waiting it has heard of all. -/
theorem ServerInv.waitReturns (h : ServerInv opts ls srv conn)
    (hctrl : srv.ctrl = .waitClient opts.numClients) :
    ServerInv opts (ls ++ [.server .waitReturns])
      { srv with main := { srv.main with phase := .stop } }
      (fun d => if d ∈ srv.clientFds then (conn d).close else conn d) := by
  have hno : (Label.server .waitReturns).firstRead? = none := rfl
  have hlen := h.full _ hctrl
  have hall : ∀ d ∈ srv.clientFds, Notified opts.magic ls d := fun d hd =>
    h.notified _ hctrl d (by rwa [← hlen, List.take_length])
  refine ⟨?_, fun d hd => ⟨?_, ?_⟩, ?_, ?_, fun d hd => List.mem_append_left _ (h.greeted d hd),
    h.full, fun j hj d hd => ?_, fun _ => hctrl, fun _ => ⟨trivial, hctrl, fun d hd => ?_⟩⟩
  · rw [authenticated_append_none hno]
    exact h.admitted
  · rw [heard_append_none hno] at hd
    show (if d ∈ srv.clientFds then (conn d).close else conn d).stage.taken
    split
    · trivial
    · exact (h.taken d hd).1
  · rw [heard_append_none hno] at hd
    exact (h.taken d hd).2
  · rw [heard_append_none hno]
    exact h.nodup
  · rw [rejected_append_none hno]
    exact h.incidents
  · exact (h.notified j hj d hd).trans (List.sublist_append_left ..)
  · exact (hall d hd).append (List.Sublist.refl [_])

/-- **Every step of the server keeps the invariant.** -/
theorem ServerInv.step {l : Server.Label} (h : ServerInv opts ls srv conn)
    (hs : srv.step opts conn l srv' conn') : ServerInv opts (ls ++ [.server l]) srv' conn' := by
  have hgreeted : ∀ d ∈ srv.clientFds, Label.server (.greet d) ∈ ls ++ [.server l] :=
    fun d hd => List.mem_append_left _ (h.greeted d hd)
  cases l with
  | listen =>
    obtain ⟨hstart, rfl, rfl⟩ := hs
    refine h.other rfl (by simp) rfl rfl rfl (fun hs => by cases hs) ?_ fun _ hd => hd
    rw [hstart]
    exact fun hp => hp.elim
  | accept c =>
    obtain ⟨hwait, hctrl, -, hqueued, rfl, rfl⟩ := hs
    refine h.call hwait rfl (by simp) rfl rfl (by simp [hctrl, Server.Ctrl.greeting])
      (fun d hd => ⟨taken_update_taken (by trivial) (h.taken d hd).1, fun heq => ?_⟩) hgreeted
      (fun i hi => by cases hi) fun i hi => by cases hi
    -- what was read from is not in the backlog
    have hdc : c = d := by simpa using heq
    have := (h.taken d hd).1
    rw [← hdc, hqueued] at this
    exact this
  | aborted c =>
    obtain ⟨-, -, -, rfl, rfl⟩ := hs
    exact h.other rfl (by simp) rfl rfl rfl id id fun d hd => taken_update_taken (by trivial) hd
  | readError c =>
    obtain ⟨hwait, hctrl, rfl, rfl⟩ := hs
    exact h.call hwait rfl (by simp) rfl rfl (by simp [hctrl, Server.Ctrl.greeting])
      (fun d hd => ⟨taken_update_taken (by trivial) (h.taken d hd).1, by simp⟩) hgreeted
      (fun i hi => by cases hi) fun i hi => by cases hi
  | firstRead c bytes =>
    obtain ⟨hwait, hctrl, rest, -, rfl, rfl⟩ := hs
    have htaken : (if matchesSecret bytes then Stage.accepted else .closed).taken := by
      split <;> trivial
    exact h.firstRead hwait hctrl (fun d hd => taken_update_taken htaken (h.taken d hd).1)
      (by simpa using htaken)
  | greet c =>
    obtain ⟨hwait, hctrl, rfl, rfl⟩ := hs
    refine h.call hwait rfl (by simp) rfl rfl (by simp [hctrl, Server.Ctrl.greeting])
      (fun d hd => ⟨taken_update (by rfl) (h.taken d hd).1, by simp⟩) (fun d hd => ?_)
      (fun i hi => by cases hi) fun i hi => by cases hi
    rcases List.mem_append.mp hd with hd | hd
    · exact hgreeted d hd
    · rw [List.mem_singleton.mp hd]
      exact List.mem_append_right _ List.mem_cons_self
  | closePort =>
    obtain ⟨hwait, hctrl, hlen, rfl, rfl⟩ := hs
    refine h.call hwait rfl (by simp) rfl rfl (by simp [hctrl, Server.Ctrl.greeting])
      (fun d hd => ⟨(h.taken d hd).1, by simp⟩) hgreeted (fun _ _ => hlen) fun i hi => ?_
    obtain rfl : 0 = i := by simpa using hi
    simp
  | recvMagic c magic =>
    obtain ⟨hwait, i, bytes, rest, hctrl, hfds, -, -, rfl, rfl⟩ := hs
    exact h.recvMagic hwait hctrl hfds
  | waitReturns =>
    obtain ⟨-, hctrl, rfl, rfl⟩ := hs
    exact h.waitReturns hctrl
  | main l =>
    obtain ⟨rfl, m', hmain, rfl⟩ := hs
    exact h.other rfl (by simp) rfl rfl rfl (Main.step_stop hmain) (Main.step_past hmain)
      fun _ hd => hd
  | exit =>
    obtain ⟨rfl, rfl⟩ := hs
    exact h.other rfl (by simp) rfl rfl rfl (fun hs => by cases hs) (fun _ => trivial)
      fun _ hd => hd

/-! ## The whole system -/

/-- The invariant of a run. -/
structure Inv (cfg : Config) (ls : List Label) (s : System) : Prop where
  server : ServerInv cfg.server ls s.server s.conn
  client : ∀ c opts, cfg.client c = some opts → ClientInv opts ls c (s.client c) (s.conn c)
  /-- A magic that came from a client came after it had joined its
  workers. -/
  joined : ∀ c opts magic, cfg.client c = some opts →
    Label.server (.recvMagic c magic) ∈ ls → Joined ls c opts.numThreads

theorem Inv.start (cfg : Config) : Inv cfg [] .start where
  server := .start _
  client c opts _ := .start opts c
  joined := by simp

theorem mem_heard_of_authenticated (hc : c ∈ authenticated ls) : c ∈ heard ls := by
  obtain ⟨r, hr, rfl⟩ := List.mem_map.mp hc
  exact List.mem_map_of_mem (List.mem_of_mem_filter hr)

theorem ServerInv.heard_of_clientFds (h : ServerInv opts ls srv conn) (hc : c ∈ srv.clientFds) :
    c ∈ heard ls := by
  refine mem_heard_of_authenticated ?_
  rw [h.admitted]
  exact List.mem_append_left _ hc

/-- A connection that is changed alike or not at all carries the same. -/
theorem SameTraffic.update {d : ℕ} {k : Conn} (h : SameTraffic (conn d) k) :
    SameTraffic (conn c) (Function.update conn d k c) := by
  by_cases hcd : c = d
  · subst hcd; simpa using h
  · simpa [hcd] using ⟨rfl, rfl, rfl⟩

theorem SameTraffic.of_ne {d : ℕ} {k : Conn} (h : c ≠ d) :
    SameTraffic (conn c) (Function.update conn d k c) := by
  simpa [h] using ⟨rfl, rfl, rfl⟩

/-- Every step of the server keeps the invariant of a client. -/
theorem Inv.client_of_server {l : Server.Label} (h : Inv cfg ls s)
    (hs : s.server.step cfg.server s.conn l srv' conn') {opts : ClientOptions}
    (hc : cfg.client c = some opts) :
    ClientInv opts (ls ++ [.server l]) c (s.client c) (conn' c) := by
  have hinv := h.client c opts hc
  cases l with
  | listen =>
    obtain ⟨-, rfl, -⟩ := hs
    exact hinv.other (mem_heard_append_none rfl) ⟨rfl, rfl, rfl⟩
  | accept d =>
    obtain ⟨-, -, -, -, -, rfl⟩ := hs
    exact hinv.other (mem_heard_append_none rfl) (.update ⟨rfl, rfl, rfl⟩)
  | aborted d =>
    obtain ⟨-, -, -, -, rfl⟩ := hs
    exact hinv.other (mem_heard_append_none rfl) (.update ⟨rfl, rfl, rfl⟩)
  | readError d =>
    obtain ⟨-, -, -, rfl⟩ := hs
    exact hinv.other (mem_heard_append_none rfl) (.update ⟨rfl, rfl, rfl⟩)
  | firstRead d bytes =>
    obtain ⟨-, -, rest, hread, -, rfl⟩ := hs
    -- only the connection that is read from changes
    by_cases hcd : c = d
    · subst hcd
      exact hinv.firstRead hread (by simp) (by simp)
    · exact hinv.other (by simp [heard_append_firstRead, hcd]) (.of_ne hcd)
  | greet d =>
    obtain ⟨-, hctrl, -, rfl⟩ := hs
    by_cases hcd : c = d
    · subst hcd
      -- who is greeted has been read from
      have hmem : c ∈ authenticated ls := by
        rw [h.server.admitted, hctrl]
        exact List.mem_append_right _ List.mem_cons_self
      simpa using hinv.greeted (mem_heard_append_none rfl) (mem_heard_of_authenticated hmem)
    · exact hinv.other (mem_heard_append_none rfl) (.of_ne hcd)
  | closePort =>
    obtain ⟨-, -, -, rfl, -⟩ := hs
    exact hinv.other (mem_heard_append_none rfl) ⟨rfl, rfl, rfl⟩
  | recvMagic d magic =>
    obtain ⟨-, i, bytes, rest, -, hfds, hread, hmagic, -, rfl⟩ := hs
    by_cases hcd : c = d
    · subst hcd
      -- this is not the first read, so it takes the notification
      have hmem := h.server.heard_of_clientFds (List.mem_of_getElem? hfds)
      obtain ⟨rfl, -⟩ := hinv.joined_of_recvMagic hmem hread hmagic
      simpa using hinv.taken (mem_heard_append_none rfl)
    · exact hinv.other (mem_heard_append_none rfl) (.of_ne hcd)
  | waitReturns =>
    obtain ⟨-, -, -, rfl⟩ := hs
    refine hinv.other (mem_heard_append_none rfl) ?_
    show SameTraffic (s.conn c) (if c ∈ s.server.clientFds then (s.conn c).close else s.conn c)
    split <;> exact ⟨rfl, rfl, rfl⟩
  | main l =>
    obtain ⟨rfl, -⟩ := hs
    exact hinv.other (mem_heard_append_none rfl) ⟨rfl, rfl, rfl⟩
  | exit =>
    obtain ⟨rfl, -⟩ := hs
    exact hinv.other (mem_heard_append_none rfl) ⟨rfl, rfl, rfl⟩

/-- A step of another party than the server. -/
theorem Inv.of_not_server {conn' : ℕ → Conn} {client' : ℕ → Client} (h : Inv cfg ls s)
    (hl : ∀ sl, l ≠ .server sl)
    (hstage : ∀ d, (s.conn d).stage.taken → (conn' d).stage.taken)
    (hclient : ∀ d opts, cfg.client d = some opts →
      ClientInv opts (ls ++ [l]) d (client' d) (conn' d)) :
    Inv cfg (ls ++ [l]) ⟨s.server, client', conn'⟩ where
  server := by
    have hno : l.firstRead? = none := by
      cases l with
      | server sl => exact absurd rfl (hl sl)
      | client | connect | send | hangUp => rfl
    exact h.server.other hno (hl _) rfl rfl rfl id id hstage
  client := hclient
  joined d opts magic hd hmem := by
    rcases List.mem_append.mp hmem with hmem | hmem
    · exact (h.joined d opts magic hd hmem).append l
    · exact absurd (List.mem_singleton.mp hmem).symm (hl _)

/-- A step of another peer. -/
theorem Inv.of_peer {d : ℕ} {k : Conn} (h : Inv cfg ls s) (hl : ∀ sl, l ≠ .server sl)
    (hl' : l.firstRead? = none) (hd : cfg.client d = none)
    (hstage : (s.conn d).stage.taken → k.stage.taken) :
    Inv cfg (ls ++ [l]) { s with conn := Function.update s.conn d k } := by
  refine h.of_not_server hl (fun e he => ?_) fun e opts he => ?_
  · by_cases hed : e = d
    · subst hed; simpa using hstage he
    · simpa [hed] using he
  · have hed : e ≠ d := by
      rintro rfl
      rw [hd] at he
      cases he
    exact (h.client e opts he).other (mem_heard_append_none hl') (.of_ne hed)

/-- A client does not touch a connection that the server has taken, but
for what is under way on it. -/
theorem Client.step_stage {opts : ClientOptions} {listening : Bool} {cl cl' : Client}
    {k k' : Conn} {l : Client.Label} (hs : cl.step opts listening k l cl' k') :
    k.stage.taken → k'.stage.taken := by
  intro htaken
  cases l with
  | connect =>
    obtain ⟨-, -, -, hun, -, -⟩ := hs
    rw [hun] at htaken
    exact htaken.elim
  | writeSecret => obtain ⟨-, -, -, rfl⟩ := hs; exact htaken
  | recvMagic => obtain ⟨-, -, _, _, _, -, -, -, rfl⟩ := hs; exact htaken
  | main l => obtain ⟨rfl, -⟩ := hs; exact htaken
  | wake => obtain ⟨-, rfl, -⟩ := hs; exact htaken
  | notify => obtain ⟨-, -, -, rfl⟩ := hs; exact htaken
  | close => obtain ⟨-, -, -, rfl⟩ := hs; exact htaken
  | exit => obtain ⟨-, rfl⟩ := hs; exact htaken

/-- **Every step keeps the invariant.** -/
theorem Inv.step (h : Inv cfg ls s) (hs : step cfg s l s') : Inv cfg (ls ++ [l]) s' := by
  cases l with
  | server l =>
    obtain ⟨hstep, hsame⟩ := hs
    refine ⟨h.server.step hstep, fun c opts hc => ?_, fun c opts magic hc hmem => ?_⟩
    · rw [hsame]
      exact h.client_of_server hstep hc
    · rcases List.mem_append.mp hmem with hmem | hmem
      · exact (h.joined c opts magic hc hmem).append _
      · -- the magic came by this very step
        obtain rfl : l = .recvMagic c magic := by simpa using (List.mem_singleton.mp hmem).symm
        obtain ⟨-, i, bytes, rest, -, hfds, hread, hmagic, -⟩ := hstep
        have hheard := h.server.heard_of_clientFds (List.mem_of_getElem? hfds)
        exact ((h.client c opts hc).joined_of_recvMagic hheard hread hmagic).2.append _
  | client d l =>
    obtain ⟨opts, cl', k', hd, hstep, rfl⟩ := hs
    refine h.of_not_server (by simp) (fun e he => ?_) fun e opts' he => ?_
    · by_cases hed : e = d
      · subst hed; simpa using Client.step_stage hstep he
      · simpa [hed] using he
    · by_cases hed : e = d
      · subst hed
        obtain rfl := Option.some.inj (hd.symm.trans he)
        simpa using (h.client e opts hd).step hstep
      · simpa [hed] using (h.client e opts' he).other (l := .client d l)
          (mem_heard_append_none rfl) ⟨rfl, rfl, rfl⟩
  | connect d =>
    obtain ⟨hd, -, hun, rfl⟩ := hs
    refine h.of_peer (by simp) rfl hd fun ht => ?_
    rw [hun] at ht
    exact ht.elim
  | send d m =>
    obtain ⟨hd, -, -, -, rfl⟩ := hs
    exact h.of_peer (by simp) rfl hd id
  | hangUp d =>
    obtain ⟨hd, rfl⟩ := hs
    exact h.of_peer (by simp) rfl hd id

theorem Inv.of_run (hrun : Run (Control.step cfg) .start ls s) : Inv cfg ls s :=
  hrun.history (fun _ _ _ _ => Inv.step) (.start cfg)

/-! ## When the server returns -/

/-- When the server tells a worker to stop it has heard of all that it
admitted, so the clients among them have joined their workers. -/
theorem Inv.joined_of_tell {n : ℕ} (h : Inv cfg ls s)
    (hs : Control.step cfg s (.server (.main (.tell n))) s') :
    (authenticated ls).length = cfg.server.numClients ∧
      ∀ c ∈ authenticated ls, ∀ opts, cfg.client c = some opts →
        Joined ls c opts.numThreads := by
  obtain ⟨⟨-, m', ⟨hstop, -⟩, -⟩, -⟩ := hs
  have hctrl := h.server.stopping hstop
  have hlen := h.server.full _ hctrl
  have hall : authenticated ls = s.server.clientFds := by
    simpa [hctrl, Server.Ctrl.greeting] using h.server.admitted
  rw [hall]
  refine ⟨hlen, fun c hc opts hopts => ?_⟩
  have hnot := h.server.notified _ hctrl c (by rwa [← hlen, List.take_length])
  have hmem : Label.server (.recvMagic c cfg.server.magic) ∈ ls :=
    hnot.subset (List.mem_cons_of_mem _ List.mem_cons_self)
  exact h.joined c opts _ hopts hmem

theorem authenticated_append (ls ls' : List Label) :
    authenticated (ls ++ ls') = authenticated ls ++ authenticated ls' := by
  simp [authenticated, firstReads]

/-- **When the server returns from waiting**, exactly `num_clients`
connections have passed authentication, on each of them the magic was
received after the handshake, and `num_incidents` is the number of
connections whose first read did not match the secret. Each client among
the admitted has joined all of its workers before the server tells a
worker to stop. -/
theorem wait_until_done (hrun : Run (step cfg) .start ls s)
    (hret : Label.server .waitReturns ∈ ls) :
    ((authenticated ls).Nodup ∧ (authenticated ls).length = cfg.server.numClients ∧
      ∀ c ∈ authenticated ls, NotifiedBefore cfg.server.magic ls c) ∧
    ((rejected ls).Nodup ∧ s.server.numIncidents = (rejected ls).length) ∧
    ∀ before after n, ls = before ++ .server (.main (.tell n)) :: after →
      ∀ c ∈ authenticated ls, ∀ opts, cfg.client c = some opts →
        ∀ w < opts.numThreads, Label.client c (.main (.join w)) ∈ before := by
  have h := Inv.of_run hrun
  obtain ⟨-, hctrl, hnotified⟩ := h.server.returned hret
  have hall : authenticated ls = s.server.clientFds := by
    simpa [hctrl, Server.Ctrl.greeting] using h.server.admitted
  have hlen : (authenticated ls).length = cfg.server.numClients := by
    rw [hall]; exact h.server.full _ hctrl
  refine ⟨⟨?_, hlen, ?_⟩, ⟨?_, h.server.incidents⟩, fun before after n hls c hc opts hopts => ?_⟩
  · exact h.server.nodup.sublist (List.filter_sublist.map _)
  · rw [hall]; exact hnotified
  · exact h.server.nodup.sublist (List.filter_sublist.map _)
  · subst hls
    obtain ⟨t, hbefore, hafter⟩ := hrun.split
    cases hafter with
    | cons hstep _ =>
      obtain ⟨hbeforeLen, hjoined⟩ := (Inv.of_run hbefore).joined_of_tell hstep
      -- nobody is admitted after that
      rw [authenticated_append] at hc hlen
      have hnone : authenticated (.server (.main (.tell n)) :: after) = [] := by
        refine List.length_eq_zero_iff.mp ?_
        rw [List.length_append] at hlen
        omega
      rw [hnone, List.append_nil] at hc
      exact hjoined c hc opts hopts

/-! ## A session -/

/-- A server and a client with one worker each. -/
def pair : Config := ⟨⟨42, 1, 1⟩, fun c => if c = 0 then some ⟨42, 1⟩ else none⟩

/-- Connection 1 is rejected, connection 0 is the client's. -/
def session : List Label :=
  [.server .listen, .server (.main (.create 0)), .server (.main .ready), .connect 1,
    .client 0 .connect, .send 1 [0], .server (.accept 1), .server (.firstRead 1 [0]),
    .client 0 .writeSecret, .server (.accept 0), .server (.firstRead 0 controlPortSecret),
    .server (.greet 0), .server .closePort, .client 0 .recvMagic, .client 0 (.main (.create 0)),
    .client 0 (.main .ready), .client 0 .wake, .client 0 (.main (.tell 0)),
    .client 0 (.main (.ends 0)), .client 0 (.main (.join 0)), .client 0 (.main .stopped),
    .client 0 .notify, .server (.recvMagic 0 42), .server .waitReturns,
    .server (.main (.tell 0))]

section Session

variable {client : ℕ → Client}

theorem run_server {l : Server.Label} (h : srv.step cfg.server conn l srv' conn')
    (hrun : Run (step cfg) ⟨srv', client, conn'⟩ ls s) :
    Run (step cfg) ⟨srv, client, conn⟩ (.server l :: ls) s :=
  .cons (t := ⟨srv', client, conn'⟩) ⟨h, rfl⟩ hrun

theorem run_client {l : Client.Label} {opts : ClientOptions} {cl cl' : Client} {k k' : Conn}
    (hc : cfg.client c = some opts) (hcl : client c = cl) (hk : conn c = k)
    (h : cl.step opts srv.listening k l cl' k')
    (hrun : Run (step cfg) ⟨srv, Function.update client c cl', Function.update conn c k'⟩ ls s) :
    Run (step cfg) ⟨srv, client, conn⟩ (.client c l :: ls) s := by
  subst hcl hk
  exact .cons ⟨opts, cl', k', hc, h, rfl⟩ hrun

theorem run_session : ∃ s, Run (step pair) .start session s := by
  refine ⟨_, run_server ⟨rfl, rfl, rfl⟩ <|
    run_server ⟨rfl, _, ⟨rfl, rfl, by decide, rfl⟩, rfl⟩ <|
    run_server ⟨rfl, _, ⟨rfl, rfl, rfl⟩, rfl⟩ <|
    .cons ⟨rfl, rfl, rfl, rfl⟩ <|
    run_client rfl rfl rfl ⟨rfl, rfl, rfl, rfl, rfl, rfl⟩ <|
    .cons ⟨rfl, by decide, by decide, rfl, rfl⟩ <|
    run_server ⟨rfl, rfl, by decide, rfl, rfl, rfl⟩ <|
    run_server ⟨rfl, rfl, _, rfl, rfl, rfl⟩ <|
    run_client rfl rfl rfl ⟨rfl, rfl, rfl, rfl⟩ <|
    run_server ⟨rfl, rfl, by decide, rfl, rfl, rfl⟩ <|
    run_server ⟨rfl, rfl, _, rfl, rfl, rfl⟩ <|
    run_server ⟨rfl, rfl, rfl, rfl⟩ <|
    run_server ⟨rfl, rfl, rfl, rfl, rfl⟩ <|
    run_client rfl rfl rfl ⟨rfl, rfl, _, _, 42, rfl, rfl, rfl, rfl⟩ <|
    run_client rfl rfl rfl ⟨rfl, _, ⟨rfl, rfl, by decide, rfl⟩, rfl⟩ <|
    run_client rfl rfl rfl ⟨rfl, _, ⟨rfl, rfl, rfl⟩, rfl⟩ <|
    run_client rfl rfl rfl ⟨rfl, rfl, rfl⟩ <|
    run_client rfl rfl rfl ⟨rfl, _, ⟨rfl, rfl, by decide, rfl⟩, rfl⟩ <|
    run_client rfl rfl rfl ⟨rfl, _, ⟨by decide, by decide, by decide, rfl⟩, rfl⟩ <|
    run_client rfl rfl rfl ⟨rfl, _, ⟨rfl, rfl, rfl, by decide, by decide, rfl⟩, rfl⟩ <|
    run_client rfl rfl rfl ⟨rfl, _, ⟨rfl, rfl, rfl, rfl⟩, rfl⟩ <|
    run_client rfl rfl rfl ⟨rfl, rfl, rfl, rfl⟩ <|
    run_server ⟨rfl, 0, _, _, rfl, rfl, rfl, rfl, rfl, rfl⟩ <|
    run_server ⟨rfl, rfl, rfl, rfl⟩ <|
    run_server ⟨rfl, _, ⟨rfl, rfl, by decide, rfl⟩, rfl⟩ <| .refl _⟩

end Session

/-- The client has joined its worker when the server tells its own to
stop. -/
theorem wait_until_done_pair :
    (authenticated session).length = 1 ∧ (∀ c ∈ authenticated session,
      NotifiedBefore 42 session c) ∧ (rejected session).Nodup ∧
      Label.client 0 (.main (.join 0)) ∈ session.take 24 := by
  obtain ⟨s, hrun⟩ := run_session
  obtain ⟨⟨-, hlen, hnotified⟩, ⟨hrejected, -⟩, hjoined⟩ := wait_until_done hrun (by decide)
  exact ⟨hlen, hnotified, hrejected,
    hjoined (session.take 24) [] 0 rfl 0 (by decide) ⟨42, 1⟩ rfl 0 (by decide)⟩

end Control

end Rushit
