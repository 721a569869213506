import Mathlib
import Higress.Lib.Blocks
import Higress.Lib.LetterCase
import Higress.Registry.Cache

/-!
What the watchers of the service registries have in common. A watcher puts the hosts of services into
the store, in callbacks of the services that it is subscribed to, and keeps the keys of these services.
When it stops, it deletes the hosts of the keys that it still has.
-/

namespace Higress.Registry

open Lib

/-! ### Service entries -/

/-- `common.Protocol` -/
inductive Protocol
  | tcp
  | http
  | http2
  | https
  | grpc
  | grpcs
  | dubbo
  | unsupported
deriving DecidableEq

def Protocol.string : Protocol → GoString
  | .tcp => bytes "TCP"
  | .http => bytes "HTTP"
  | .http2 => bytes "HTTP2"
  | .https => bytes "HTTPS"
  | .grpc => bytes "GRPC"
  | .grpcs => bytes "GRPCS"
  | .dubbo => bytes "Dubbo"
  | .unsupported => bytes "UnsupportedProtocol"

def parseProtocol (table : CaseTable) (s : GoString) : Protocol :=
  let s := toLower table s
  if s = bytes "tcp" then .tcp
  else if s = bytes "http" then .http
  else if s = bytes "https" then .https
  else if s = bytes "http2" then .http2
  else if s = bytes "grpc" ∨ s = bytes "triple" ∨ s = bytes "tri" then .grpc
  else if s = bytes "grpcs" then .grpcs
  else if s = bytes "dubbo" then .dubbo
  else .unsupported

structure ServicePort where
  name : GoString
  number : ℕ
  protocol : GoString

inductive Resolution
  | static
  | dns

/-- `WorkloadEntry`, with the one port that the watchers give it. -/
structure WorkloadEntry where
  address : GoString
  port : GoString × ℕ
  labels : List (GoString × GoString)
  weight : ℕ

/-- `ServiceEntry`; its location is always the inside of the mesh. -/
structure ServiceEntry where
  hosts : List GoString
  ports : List ServicePort
  resolution : Resolution
  endpoints : List WorkloadEntry

structure ServiceWrapper (ε : Type) where
  serviceName : GoString
  serviceEntry : ε
  suffix : GoString
  registryType : GoString
  registryName : GoString

/-! ### Hosts that are put and deleted -/

section Kept

variable {α β : Type} {s : Store α β} {put watching : List GoString} {host : GoString → GoString}

/-- The deletion of some hosts, one after the other. -/
def Store.clean (s : Store α β) (hosts : List GoString) : Store α β :=
  hosts.foldl Store.deleteServiceWrapper s

theorem Store.clean_effect (s : Store α β) (hosts : List GoString) (h : GoString) :
    ((s.clean hosts).Has h .service ↔ s.Has h .service) ∧
      ((s.clean hosts).Deferred h .service ↔
        s.Deferred h .service ∨ s.Has h .service ∧ h ∈ hosts) := by
  induction hosts generalizing s with
  | nil => simp [clean]
  | cons host hosts ih =>
      obtain ⟨hhas, hdeferred⟩ := ih (s.deleteServiceWrapper host)
      obtain ⟨hhas', hdeferred'⟩ := s.deleteService_effect host h .service
      change (((s.deleteServiceWrapper host).clean hosts).Has h .service ↔ _) ∧
        (((s.deleteServiceWrapper host).clean hosts).Deferred h .service ↔ _)
      rw [hhas, hdeferred, hhas', hdeferred', List.mem_cons]
      refine ⟨Iff.rfl, ?_⟩
      rw [or_assoc, ← and_or_left]
      simp

/-- The hosts that were put are in the store. -/
def Present (s : Store α β) (put : List GoString) : Prop := ∀ h ∈ put, s.Has h .service

/-- Every host that was put is to be deleted already, or belongs to a key that is still there. -/
def Kept (host : GoString → GoString) (s : Store α β) (put watching : List GoString) : Prop :=
  ∀ h ∈ put, s.Deferred h .service ∨ ∃ key ∈ watching, host key = h

theorem Present.update (h : Present s put) (name : GoString) (data : α) (now : ℕ) :
    Present (s.updateServiceWrapper name data now) (put ++ [name]) := by
  intro n hn
  rw [(s.updateService_effect name n .service data now).1]
  rcases List.mem_append.mp hn with hn | hn
  · exact .inl (h n hn)
  · exact .inr ⟨rfl, List.mem_singleton.mp hn⟩

theorem Present.delete (h : Present s put) (name : GoString) :
    Present (s.deleteServiceWrapper name) put := by
  intro n hn
  rw [(s.deleteService_effect name n .service).1]
  exact h n hn

/-- A host is put for a key that is there. -/
theorem Kept.update (h : Kept host s put watching) {key : GoString} (hkey : key ∈ watching) (data : α)
    (now : ℕ) : Kept host (s.updateServiceWrapper (host key) data now) (put ++ [host key]) watching := by
  intro n hn
  by_cases hsame : n = host key
  · exact .inr ⟨key, hkey, hsame.symm⟩
  · have hold : n ∈ put := by simpa [hsame] using hn
    rw [(s.updateService_effect (host key) n .service data now).2]
    exact (h n hold).imp_left fun hdeferred => ⟨hdeferred, fun heq => hsame heq.2⟩

theorem Kept.delete (h : Kept host s put watching) (name : GoString) :
    Kept host (s.deleteServiceWrapper name) put watching := by
  intro n hn
  rw [(s.deleteService_effect name n .service).2]
  exact (h n hn).imp_left .inl

/-- Keys may go if their hosts were not put or are to be deleted. -/
theorem Kept.mono (h : Kept host s put watching) {watching' : List GoString}
    (hkeys : ∀ key ∈ watching, host key ∈ put → ¬ s.Deferred (host key) .service → key ∈ watching') :
    Kept host s put watching' := by
  intro n hn
  by_cases hdeferred : s.Deferred n .service
  · exact .inl hdeferred
  · obtain ⟨key, hkey, rfl⟩ := (h n hn).resolve_left hdeferred
    exact .inr ⟨key, hkeys key hkey hn hdeferred, rfl⟩

/-- A deletion of the hosts of all the keys that are there leaves no host behind exactly if every host
was kept. -/
theorem clean_iff_kept (hpresent : Present s put) {order : List GoString}
    (horder : order.Perm watching) :
    (∀ h ∈ put, (s.clean (order.map host)).Deferred h .service) ↔ Kept host s put watching := by
  refine forall₂_congr fun h hput => ?_
  rw [(s.clean_effect _ h).2, and_iff_right (hpresent h hput), List.mem_map]
  exact or_congr_right (exists_congr fun key => and_congr_left fun _ => horder.mem_iff)

end Kept

end Higress.Registry
