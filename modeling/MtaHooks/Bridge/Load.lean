import MtaHooks.Bridge.Delivery
import MtaHooks.Server.Memory

namespace MtaHooks

open Hooks

/-!
# The load on the scanner

An invocation is polled by the connection that waits for it, so there are no more of them under
way than running connections, and each is about the session of its own.

* `Bridge.load_bounded` — invocations under way, and what they hold, are bounded by the settings
  of the server.
-/

namespace Server

open ConnectionTask

/-- Running connections, each one once, are no more than there are. -/
theorem length_le_running {s : Server} {ns : List ℕ} (hnodup : ns.Nodup)
    (hlive : ∀ n ∈ ns, (s.live n).isSome = true) : ns.length ≤ s.tasks.countP isRunning := by
  have hcount : s.tasks.countP isRunning =
      ((List.range s.tasks.length).filter fun n => (s.live n).isSome).length := by
    have htasks : (List.range s.tasks.length).map (s.tasks[·]?) = s.tasks.map some := by
      apply List.ext_getElem?
      intro n
      by_cases hn : n < s.tasks.length
      · simp [hn]
      · simp [Nat.le_of_not_lt hn]
    have hrunning : s.tasks.countP isRunning =
        (s.tasks.map some).countP fun o => (o.filter fun c => c.fate = .running).isSome := by
      rw [List.countP_map]
      refine List.countP_congr fun c _ => ?_
      simp [isRunning]
    rw [hrunning, ← htasks, List.countP_map, List.countP_eq_length_filter]
    rfl
  rw [hcount]
  refine (hnodup.subperm fun n hn => ?_).length_le
  have hsome := hlive n hn
  obtain ⟨c, hc⟩ := Option.isSome_iff_exists.mp hsome
  have hlt := (List.getElem?_eq_some_iff.mp (live_some.mp hc).1).1
  exact List.mem_filter.mpr ⟨List.mem_range.mpr hlt, hsome⟩

end Server

namespace Bridge

variable {Url Origin : Type} {b : Bridge Url}

/-- The connection of an invocation. -/
def connectionOf (b : Bridge Url) (i : ℕ) : ℕ := (b.calls[i]?.map Invoked.connection).getD 0

/-- An invocation under way is about the session of a running connection. -/
theorem Linked.connection (h : b.Linked) {i : ℕ} {call : Invoked} (hcall : b.calls[i]? = some call)
    (hactive : (b.life.invocation i).isActive = true) :
    b.future call.connection = some i ∧ ∃ c, b.server.live call.connection = some c ∧
      c.driver.session = call.session := by
  obtain ⟨call', hcall', hfuture⟩ := h.active i hactive
  obtain rfl := Option.some.inj (hcall.symm.trans hcall')
  obtain ⟨call', hcall', -, hawaited, -⟩ := h.waits _ i hfuture
  obtain rfl := Option.some.inj (hcall.symm.trans hcall')
  obtain ⟨c, hlive, hawaits⟩ := Server.awaited_some.mp hawaited
  exact ⟨hfuture, c, hlive, (Server.awaits_phase hawaits).1⟩

/-- **The load is bounded.**  In every run of the bridge, whatever the MTAs and the scanner do:
    no more than `max_connections` invocations are under way at a time, and the session that
    each of them is about is within the limits. -/
theorem load_bounded [DecidableEq Origin] {config : BridgeConfig Url Origin}
    {events : List BridgeEvent} {b : Bridge Url} (h : Reaches config events b) :
    (∀ is : List ℕ, is.Nodup → (∀ i ∈ is, (b.life.invocation i).isActive = true) →
      is.length ≤ config.server.maxConnections) ∧
    ∀ i call, b.calls[i]? = some call → (b.life.invocation i).isActive = true →
      call.session.Within config.server.limits := by
  obtain ⟨hlinked, ⟨ready, past, hserver⟩, -⟩ := h.sides
  refine ⟨fun is hnodup hactive => ?_, fun i call hcall hactive => ?_⟩
  · -- Each invocation has its own connection.
    have hconnection : ∀ i ∈ is, b.future (b.connectionOf i) = some i ∧
        (b.server.live (b.connectionOf i)).isSome = true := by
      intro i hi
      obtain ⟨call, hcall, -⟩ := hlinked.active i (hactive i hi)
      obtain ⟨hfuture, c, hlive, -⟩ := hlinked.connection hcall (hactive i hi)
      have heq : b.connectionOf i = call.connection := by simp [connectionOf, hcall]
      rw [heq, hlive]
      exact ⟨hfuture, rfl⟩
    have hinjective : ∀ i ∈ is, ∀ j ∈ is, b.connectionOf i = b.connectionOf j → i = j := by
      intro i hi j hj heq
      have hfuture := (hconnection i hi).1
      rw [heq, (hconnection j hj).1] at hfuture
      exact (Option.some.inj hfuture).symm
    have hrunning :
        (is.map b.connectionOf).length ≤ b.server.tasks.countP ConnectionTask.isRunning := by
      refine Server.length_le_running (List.Nodup.map_on hinjective hnodup) fun n hn => ?_
      obtain ⟨i, hi, rfl⟩ := List.mem_map.mp hn
      exact (hconnection i hi).2
    have hpermits := hserver.inv.pooled.permits
    rw [List.length_map] at hrunning
    omega
  · obtain ⟨-, c, hlive, hsession⟩ := hlinked.connection hcall hactive
    obtain ⟨hn, hc⟩ := Server.live_some.mp hlive
    rw [← hsession]
    exact Server.within_of_running hserver.inv (List.mem_of_getElem? hn) hc

/-- One connection at a time has at most one invocation. -/
theorem load_bounded_at_end : ∃ b, Reaches sampleConfig sampleEvents b ∧
    ∀ is : List ℕ, is.Nodup → (∀ i ∈ is, (b.life.invocation i).isActive = true) →
      is.length ≤ 1 := by
  obtain ⟨b, hb, -⟩ := Option.map_eq_some_iff.mp sampleEvents_awaited
  have hreaches := sampleBridge_reaches hb
  exact ⟨b, hreaches, (load_bounded hreaches).1⟩

end Bridge

end MtaHooks
