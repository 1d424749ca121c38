import ChatSystem.Epoll.Relays
import ChatSystem.Fork.Relays

/-!
# Broadcasts of the epoll server and of the fork server

Both servers route one broadcast at a time, so that all clients get the broadcasts of others in
one order. The epoll server keeps a copy for a connection if its buffer has room; the fork server
writes it to the pipe of the connection's child.
-/

namespace ChatSystem.Chat

open Transition

/-- In every run of either server, all connections get the relayed broadcasts in the order in which
they are routed, each at most once and only if it was routed for them, and those of a sender in
the order in which it sent them; what a client receives is the front of what was handed over. -/
theorem broadcast_order (history : History) :
    (∀ (ls : List Epoll.Label) (srv : Epoll.Server),
      run Epoll.step (Epoll.Server.init history) ls = some srv →
      TotallyOrdered (Epoll.posts (Epoll.Server.init history) ls)
          (fun c => Epoll.inboxOf c srv.log)
          (fun o => received ((Epoll.streamOf o srv.log).length + 1)
            ⟨Epoll.streamOf o srv.log, []⟩) ∧
        ∀ c, srv.kernel.wire c <+: Epoll.packed ((Epoll.inboxOf c srv.log).map Prod.snd)) ∧
    ∀ (ls : List (Fork.Tid × Fork.Input)) (st : Fork.State),
      run Fork.step (Fork.init history) ls = some st →
      TotallyOrdered (Fork.posts (Fork.init history) ls)
          (fun c => Fork.inboxOf c (Fork.init history) ls)
          (fun o => (Fork.taken o (Fork.init history) ls).map canonical) ∧
        ∀ c, Fork.deliveredTo c st.shared.log <+:
          ((Fork.inboxOf c (Fork.init history) ls).map Prod.snd).map canonical := by
  constructor
  · intro ls srv hrun
    exact Epoll.broadcasts_ordered hrun
  · intro ls st hrun
    exact Fork.broadcasts_ordered hrun

/-- Two clients of the epoll server log in and the first one shouts; a client of the fork server
leaves at once. -/
theorem broadcast_order_meeting :
    (∃ srv, run Epoll.step (Epoll.Server.init fun _ => none)
        (Epoll.meeting ++ [Epoll.wake 5 Epoll.shout]) = some srv ∧
      TotallyOrdered (Epoll.posts (Epoll.Server.init fun _ => none)
          (Epoll.meeting ++ [Epoll.wake 5 Epoll.shout]))
        (fun c => Epoll.inboxOf c srv.log)
        (fun o => received ((Epoll.streamOf o srv.log).length + 1)
          ⟨Epoll.streamOf o srv.log, []⟩)) ∧
    ∃ st, run Fork.step (Fork.init fun _ => none) (Fork.connect 0 4 100) = some st ∧
      ∀ c, Fork.deliveredTo c st.shared.log <+:
        ((Fork.inboxOf c (Fork.init fun _ => none) (Fork.connect 0 4 100)).map Prod.snd).map
          canonical := by
  constructor
  · obtain ⟨a, hrun, ha⟩ := Epoll.chatting_meeting
    obtain ⟨srv, hrun', -⟩ := ha.run Epoll.wellFormed_shout Epoll.kind_shout (by decide) 1
      (by rw [Epoll.length_shout]; decide)
    have hall := run_trans hrun hrun'
    exact ⟨srv, hall, ((broadcast_order fun _ => none).1 _ _ hall).1⟩
  · exact ⟨_, rfl, ((broadcast_order fun _ => none).2 _ _ rfl).2⟩

end ChatSystem.Chat
