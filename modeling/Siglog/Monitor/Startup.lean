import Siglog.Monitor.Served
import Siglog.Witness.Vkey

/-! The start of a monitoring witness from its private key and the texts of its logs. It
watches each log that is given with the key that the log has exported. -/

namespace Siglog.Monitor

open Note (CheckpointSigner LawfulNoteKeys NoteCrypto NoteKeys Origin)
open Text
open Text.Base64 (DecodeErrors)
open Witness (Exported LogConfig)

section

variable {SK VK : Type} [NoteCrypto SK VK] [NoteKeys SK VK] [DecodeErrors]

/-- Parse a log configuration from "origin=vkey=url" format. -/
def parseLogConfig (SK : Type) [NoteCrypto SK VK] [NoteKeys SK VK] (s : Str) :
    Except String (LogConfig VK) :=
  match splitN '=' 3 s with
  | [origin, vkey, url] =>
    (LogConfig.withUrl SK origin vkey url).mapError fun e => "invalid log config: " ++ e.display
  | _ =>
    .error ("invalid log config format: expected 'origin=vkey=url', got '" ++ String.ofList s ++
      "'")

/-- The witness that is served with a private key and log configurations. -/
def start (privateKey : Str) (logs : List Str) : Except String (MonitoringWitness SK VK) := do
  let logs ← logs.mapM (parseLogConfig SK)
  if logs.isEmpty then .error "At least one log must be configured with --log"
  else
    let signer ← (CheckpointSigner.fromNoteKey privateKey).mapError fun e =>
        "invalid private key: " ++ e.display
    .ok ⟨signer, logs⟩

/-- A log that is to be monitored: its origin, its signer and where it is served. -/
structure MonitoredLog (SK : Type) where
  origin : Origin
  signer : CheckpointSigner SK
  url : Str

namespace MonitoredLog

/-- The configuration of a log with an exported key. -/
def text (log : MonitoredLog SK) : Str :=
  log.origin.str ++ '=' :: (log.signer.verificationKey ++ '=' :: log.url)

def config (log : MonitoredLog SK) : LogConfig VK :=
  ⟨log.origin.str, some log.url, NoteCrypto.verifyingKey log.signer.signingKey, log.signer.keyId,
    log.signer.name⟩

/-- A log that can be given as one text. -/
structure Given (log : MonitoredLog SK) : Prop where
  exported : Exported log.signer
  origin : '=' ∉ log.origin.str
  name : '=' ∉ log.signer.name

end MonitoredLog

variable [LawfulNoteKeys SK VK]

theorem parseLogConfig_text {log : MonitoredLog SK} (h : log.Given) :
    parseLogConfig SK log.text = .ok log.config := by
  have hvkey : '=' ∉ log.signer.verificationKey := by
    refine Note.not_mem_keyText h.name (by decide) (by decide) ?_ _
    refine Base64.pad_not_mem_encode ?_
    rw [List.length_cons, (NoteCrypto.keyBytes SK _).2]
  have hsplit := (@splitN_iff '=' [log.origin.str, log.signer.verificationKey] log.text log.url).mpr
    ⟨by simp [h.origin, hvkey], by simp [MonitoredLog.text]⟩
  rw [parseLogConfig,
    show splitN '=' 3 log.text = [log.origin.str, log.signer.verificationKey, log.url] from hsplit]
  dsimp only
  rw [LogConfig.withUrl, h.exported.new]
  rfl

/-- A monitoring witness that is started with the exported keys and the URLs of logs watches
each of them, if no two have one origin. -/
theorem start_watches {privateKey : Str} {signer : CheckpointSigner SK}
    (hkey : CheckpointSigner.fromNoteKey privateKey = .ok signer) {logs : List (MonitoredLog SK)}
    (hne : logs ≠ [])
    (hlogs : ∀ log ∈ logs, log.Given) (horigins : (logs.map fun log => log.origin.str).Nodup) :
    start privateKey (logs.map MonitoredLog.text) = .ok ⟨signer, logs.map MonitoredLog.config⟩ ∧
      ∀ log ∈ logs, Watches ⟨signer, logs.map MonitoredLog.config⟩ log.signer log.origin
        (log.url.reverse.dropWhile (· = '/')).reverse := by
  constructor
  · rw [start, mapM_map fun log hlog => parseLogConfig_text (hlogs log hlog), hkey]
    cases logs with
    | nil => exact absurd rfl hne
    | cons log logs => rfl
  · intro log hlog
    -- the first log of this origin is the only one
    have hnodup : ((logs.map MonitoredLog.config).map LogConfig.origin).Nodup := by
      rw [List.map_map]
      exact horigins
    exact ⟨log.config, log.url, find_of_nodup hnodup (List.mem_map_of_mem hlog), rfl, rfl, rfl, rfl,
      rfl⟩

end

/-! ### One log -/

section

open Note (SeedKey StartKey logOrigin logSigner)

attribute [local instance] Text.Base64.plainErrors

def monitoredOne : MonitoredLog SeedKey := ⟨logOrigin, logSigner, "https://log/".toList⟩

def monitorSigner : CheckpointSigner SeedKey := .fromSeed "monitor".toList (StartKey.start 32 [2])

theorem start_watches_one :
    start monitorSigner.toNoteKey [monitoredOne.text] = .ok ⟨monitorSigner, [monitoredOne.config]⟩ ∧
    Watches ⟨monitorSigner, [monitoredOne.config]⟩ logSigner logOrigin "https://log".toList := by
  have hkey : CheckpointSigner.fromNoteKey monitorSigner.toNoteKey = .ok monitorSigner :=
    (CheckpointSigner.fromNoteKey_toNoteKey_iff rfl).mpr (by decide)
  have hgiven : ∀ log ∈ [monitoredOne], log.Given := by
    intro log hlog
    obtain rfl := List.mem_singleton.mp hlog
    exact ⟨⟨⟨_, rfl⟩, by decide, by decide⟩, by decide, by decide⟩
  obtain ⟨hstart, hwatches⟩ :=
    start_watches hkey (List.cons_ne_nil _ _) hgiven (List.nodup_singleton _)
  exact ⟨hstart, hwatches monitoredOne (List.mem_singleton_self _)⟩

end

end Siglog.Monitor
