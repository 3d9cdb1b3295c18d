import UringServer.Lib.History
import UringServer.Lib.Replay

/-! # What the server is for

A greeter listens, takes note of clients as they connect, reports what they send and greets whoever
sent it. Its state is who is connected, and everything it has put out so far in one history. The
clients and the messages may be of any type.
-/

namespace UringServer

open Replay History

/-- What a greeter reports. A packet is reported together with the client that connected last. -/
inductive Notice (κ μ : Type) where
  | text (fmt : List Char)
  | connected (client : κ)
  | packet (newest : Option κ) (message : μ)
deriving DecidableEq, Repr

/-- What a greeter puts out: requests to the outside, and its reports. -/
inductive Output (κ μ : Type) where
  | listen
  | subscribe (client : κ)
  | report (notice : Notice κ μ)
  | greet (client : κ)
deriving DecidableEq, Repr

/-- What makes a greeter act. -/
inductive Action (κ μ : Type) where
  | listen
  | say (fmt : List Char)
  | connect (client : κ)
  | message (client : κ) (message : μ)
deriving DecidableEq, Repr

/-- The clients connected, the newest first, and the history of what was put out. -/
structure Greeter (κ μ : Type) where
  clients : List κ
  outputs : List (Output κ μ)
deriving DecidableEq, Repr

namespace Greeter

variable {κ μ : Type}

/-- A greeter that has not begun. -/
def start : Greeter κ μ := ⟨[], []⟩

/-- Put out more. -/
def emit (g : Greeter κ μ) (added : List (Output κ μ)) : Greeter κ μ :=
  { g with outputs := g.outputs ++ added }

/-- One action. A client connects once, and only while somebody listens; only clients send. -/
def act? [DecidableEq κ] [DecidableEq μ] (g : Greeter κ μ) : Action κ μ → Option (Greeter κ μ)
  | .listen => some (g.emit [.listen])
  | .say fmt => some (g.emit [.report (.text fmt)])
  | .connect client =>
      if .listen ∈ g.outputs ∧ client ∉ g.clients then
        some { g.emit [.subscribe client, .report (.connected client)] with
          clients := client :: g.clients }
      else none
  | .message client message =>
      if client ∈ g.clients then
        some (g.emit [.report (.packet g.clients.head? message), .greet client])
      else none

/-- Why something was put out: a greeting answers a packet reported just before, from a client that
was subscribed to, and packets are reported after somebody connected. -/
def Caused (before : List (Output κ μ)) : Output κ μ → Prop
  | .listen => True
  | .subscribe _ => .listen ∈ before
  | .report (.text _) => True
  | .report (.connected client) => .subscribe client ∈ before
  | .report (.packet newest _) => ∃ client, newest = some client ∧ .report (.connected client) ∈ before
  | .greet client => .subscribe client ∈ before ∧
      ∃ newest message, before.getLast? = some (.report (.packet newest message))

/-- Clients connect once, they are the ones that were subscribed to and reported, and whatever was
put out had a cause. -/
structure Sound (g : Greeter κ μ) : Prop where
  distinct : g.clients.Nodup
  subscribed : ∀ client, .subscribe client ∈ g.outputs ↔ client ∈ g.clients
  reported : ∀ client, .report (.connected client) ∈ g.outputs ↔ client ∈ g.clients
  justified : Justified Caused g.outputs

theorem start_sound : (start : Greeter κ μ).Sound := by
  refine ⟨List.nodup_nil, ?_, ?_, justified_nil⟩ <;> simp [start]

/-- Outputs that connect nobody need their causes only. -/
theorem Sound.emit {g : Greeter κ μ} (sound : g.Sound) {added : List (Output κ μ)}
    (subscribes : ∀ client, .subscribe client ∉ added)
    (connects : ∀ client, .report (.connected client) ∉ added)
    (justified : Justified (fun before => Caused (g.outputs ++ before)) added) : (g.emit added).Sound := by
  refine ⟨sound.distinct, ?_, ?_, justified_append_iff.mpr ⟨sound.justified, justified⟩⟩
  · intro client
    simp only [Greeter.emit, List.mem_append, subscribes, or_false, sound.subscribed]
  · intro client
    simp only [Greeter.emit, List.mem_append, connects, or_false, sound.reported]

/-- Every action of a sound greeter leaves it sound. -/
theorem Sound.act [DecidableEq κ] [DecidableEq μ] {g next : Greeter κ μ} {action : Action κ μ}
    (sound : g.Sound) (acted : g.act? action = some next) : next.Sound := by
  cases action with
  | listen =>
    cases acted
    exact sound.emit (by simp) (by simp) (justified_singleton_iff.mpr trivial)
  | say fmt =>
    cases acted
    exact sound.emit (by simp) (by simp) (justified_singleton_iff.mpr trivial)
  | connect client =>
    simp only [act?] at acted
    split_ifs at acted with allowed
    cases acted
    obtain ⟨listening, fresh⟩ := allowed
    have justified : Justified (fun before => Caused (g.outputs ++ before))
        [.subscribe client, .report (.connected client)] := by
      refine justified_pair_iff.mpr ⟨?_, ?_⟩
      · simpa [Caused] using listening
      · simp [Caused]
    refine ⟨List.nodup_cons.mpr ⟨fresh, sound.distinct⟩, ?_, ?_,
      justified_append_iff.mpr ⟨sound.justified, justified⟩⟩
    · intro other
      simp only [Greeter.emit, List.mem_append, List.mem_cons, sound.subscribed]
      simp [or_comm]
    · intro other
      simp only [Greeter.emit, List.mem_append, List.mem_cons, sound.reported]
      simp [or_comm]
  | message client message =>
    simp only [act?] at acted
    split_ifs at acted with known
    cases acted
    refine sound.emit (by simp) (by simp) (justified_pair_iff.mpr ⟨?_, ?_⟩)
    · obtain ⟨newest, head⟩ := Option.ne_none_iff_exists'.mp fun none =>
        List.ne_nil_of_mem known (List.head?_eq_none_iff.mp none)
      refine ⟨newest, head, ?_⟩
      rw [List.append_nil, sound.reported]
      exact List.mem_of_head? head
    · refine ⟨?_, ⟨_, _, List.getLast?_concat ..⟩⟩
      exact List.mem_append_left _ ((sound.subscribed client).mpr known)

/-- A sound greeter stays sound wherever its actions lead. -/
theorem Sound.run [DecidableEq κ] [DecidableEq μ] {g next : Greeter κ μ} {actions : List (Action κ μ)}
    (sound : g.Sound) (run : run? act? g actions = some next) : next.Sound :=
  run?_preserves (fun _ _ _ sound acted => sound.act acted) sound run

end Greeter

end UringServer
