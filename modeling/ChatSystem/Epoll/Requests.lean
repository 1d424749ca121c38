import ChatSystem.Epoll.Slots

/-!
# One request at a time

A wake-up that brings exactly one frame to a slot with an empty buffer is one call of
`process_message`, between filling the buffer and emptying it again.
-/

namespace ChatSystem.Epoll

open Transition

/-- One frame, then `EAGAIN`. -/
def Burst.frame (f : List UInt8) : Burst := ⟨f, [], .again⟩

variable {srv a : Server} {s : Slot} {fd c : Nat} {f : List UInt8} {m : Message} {env : Env}

/-- Recording an arrival and storing it changes no login data, connection or output. -/
structure SameButRead (a b : Server) : Prop where
  entry : ∀ i, (b.clients i).toEntry = (a.clients i).toEntry
  fd : ∀ i, (b.clients i).fd = (a.clients i).fd
  inUse : ∀ i, (b.clients i).inUse = (a.clients i).inUse
  sbuf : ∀ i, (b.clients i).sbuf = (a.clients i).sbuf
  kernel : b.kernel = a.kernel
  history : b.history = a.history

theorem SameButRead.table {a b : Server} (h : SameButRead a b) : b.table = a.table :=
  funext h.entry

theorem SameButRead.connOf {a b : Server} (h : SameButRead a b) (i : Slot) :
    b.connOf i = a.connOf i := by
  rw [Server.connOf, h.fd, h.kernel, Server.connOf]

theorem sameButRead_setClient {d : Client} (h : SameButInput (a.clients s) d) :
    SameButRead a (a.setClient s d) := by
  have hc : ∀ i, Function.update a.clients s d i = a.clients i ∨
      i = s ∧ Function.update a.clients s d i = d := by
    intro i
    by_cases hi : i = s
    · exact Or.inr ⟨hi, hi ▸ Function.update_self _ _ _⟩
    · exact Or.inl (Function.update_of_ne hi _ _)
  constructor
  case entry =>
    intro i
    rcases hc i with hi | ⟨rfl, hi⟩
    · simp only [Server.setClient, hi]
    · simp only [Server.setClient, hi, h.entry]
  case fd =>
    intro i
    rcases hc i with hi | ⟨rfl, hi⟩
    · simp only [Server.setClient, hi]
    · simp only [Server.setClient, hi, h.fd]
  case inUse =>
    intro i
    rcases hc i with hi | ⟨rfl, hi⟩
    · simp only [Server.setClient, hi]
    · simp only [Server.setClient, hi, h.inUse]
  case sbuf =>
    intro i
    rcases hc i with hi | ⟨rfl, hi⟩
    · simp only [Server.setClient, hi]
    · simp only [Server.setClient, hi, h.sbuf]
  case kernel => rfl
  case history => rfl

theorem sameButRead_filled (srv : Server) (s : Slot) (b : Burst) :
    SameButRead srv (srv.filled s b) := by
  have h := @sameButRead_setClient (srv.note (.arrived (srv.connOf s) b.data (.read b.ending))) s _
    (readLoop_same (srv.clients s) b.data b.sizes)
  exact ⟨h.entry, h.fd, h.inUse, h.sbuf, h.kernel, h.history⟩

theorem sameButRead_consume (srv : Server) (s : Slot) (n : Nat) :
    SameButRead srv (srv.consume s n) :=
  sameButRead_setClient ⟨rfl, rfl, rfl, rfl⟩

/-- The buffer of a slot after a wake-up with one frame. -/
theorem Holds.filled_frame (h : Holds srv s fd c []) (hf : frameFormat.IsFrame f) :
    (readLoop (srv.clients s) f []).1 = false ∧ Holds (srv.filled s (.frame f)) s fd c f := by
  obtain ⟨-, k3, -⟩ := readLoop_spec h.bufOk f []
  obtain ⟨hle, hlen⟩ := isFrame_iff.mp hf
  rw [h.received, List.nil_append] at k3
  have hroom : (readLoop (srv.clients s) f []).1 = false := by
    rw [← Bool.not_eq_true, k3]
    unfold rbufSize
    omega
  exact ⟨hroom, h.filled (.frame f) hroom⟩

/-- A slot with one frame in its buffer is at a turn with a complete frame. -/
theorem Holds.complete (h : Holds a s fd c f) (hf : frameFormat.IsFrame f) :
    a.Complete s ∧ a.total s = f.length ∧ a.front s = f := by
  rw [← List.append_nil f] at h
  exact h.complete_append hf

/-- Handling one frame is one call of `process_message`, and unless that was a logout the slot
waits for the next one. -/
theorem Holds.handleRead_frame (h : Holds srv s fd c []) (hfind : srv.findByFd fd = some s)
    (hf : frameFormat.IsFrame f) (hm : unpackMessage f = some m) (env : Env) :
    srv.handleRead env fd (.frame f) =
        ((srv.filled s (.frame f)).processMessage env s m).consume s f.length ∧
      (m.kind ≠ some .logout → Holds (srv.handleRead env fd (.frame f)) s fd c []) := by
  obtain ⟨hroom, hold⟩ := h.filled_frame hf
  have hread : srv.handleRead env fd (.frame f) =
      Epoll.parseLoop env s (srv.filled s (.frame f)) := by
    rw [Server.handleRead]
    simp only [hfind]
    change (if (readLoop (srv.clients s) f []).1 then _ else _ : Server) = _
    rw [hroom, if_neg Bool.false_ne_true]
    rfl
  have hdis : (srv.filled s (.frame f)).dispatch env s f =
      (srv.filled s (.frame f)).processMessage env s m := by
    rw [Server.dispatch, hm]
  have hold' : Holds (srv.filled s (.frame f)) s fd c (f ++ []) := by
    rw [List.append_nil]
    exact hold
  rw [hread, hold'.parseLoop_frame hf env, hdis]
  by_cases hout : m.kind = some .logout
  · obtain ⟨-, -, -, hzero⟩ := hold.logout env hout
    refine ⟨parseLoop_of_lt ?_, fun hne => absurd hout hne⟩
    rw [Server.rbufLen_consume, hzero]
    change (0 : Int) - _ < _
    have : 0 < headerSize := by decide
    omega
  · have hq := quiet_processMessage (srv.filled s (.frame f)) env s hout
    have hend := ((hold'.note (.processed ((srv.filled s (.frame f)).connOf s) m)).quiet hq).consume
    have hstop := hend.parseLoop_short (Framing.front_eq_short_of_lt frameFormat.header_pos) env
    exact ⟨hstop, fun _ => hstop.symm ▸ hend⟩

/-- Handling one frame calls `process_message` in the state behind the reading loop. -/
theorem Holds.called_frame (h : Holds srv s fd c []) (hfind : srv.findByFd fd = some s)
    (hf : frameFormat.IsFrame f) (hm : unpackMessage f = some m) (env : Env) :
    Called srv ⟨env, srv.kernel.script, .readable fd (.frame f)⟩ (srv.filled s (.frame f)) s m := by
  obtain ⟨hroom, hold⟩ := h.filled_frame hf
  obtain ⟨hc, -, hfront⟩ := hold.complete hf
  refine ⟨⟨fd, .frame f, rfl, hfind, hroom, rfl, .first⟩, hc, ?_⟩
  rw [hfront]
  exact hm

end ChatSystem.Epoll
