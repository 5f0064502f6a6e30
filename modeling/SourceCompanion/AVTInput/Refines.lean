import SourceCompanion.AVTInput.Returns
import SourceCompanion.Run.Mealy

/-! # The input behind the sockets

What waits at the input socket is what a call reads. So the calls at open sockets give what the
calls without sockets give, whatever arrives and whenever PAD is requested.
-/

namespace SourceCompanion.AVTInput.Endpoint

/-- The states after some calls with their answers: datagrams arrive and PAD frames are stored in
between. -/
inductive Run (os : Os) (start : Endpoint) :
    List Call → List (Option (List UInt8 × ℤ)) → Endpoint → Prop where
  | start : Run os start [] [] start
  | arriveInput {calls : List Call} {answers : List (Option (List UInt8 × ℤ))} {s : Endpoint}
      (d : Datagram) (ts : ℤ) : Run os start calls answers s →
      Run os start calls answers { s with inputSocket := { s.inputSocket with
        pending := s.inputSocket.pending ++ [(d, ts)] } }
  | arrivePad {calls : List Call} {answers : List (Option (List UInt8 × ℤ))} {s : Endpoint}
      (d : List UInt8) : Run os start calls answers s →
      Run os start calls answers { s with inputPadSocket := { s.inputPadSocket with
        pending := s.inputPadSocket.pending ++ [d] } }
  | pushPADFrame {calls : List Call} {answers : List (Option (List UInt8 × ℤ))} {s : Endpoint}
      (buf : List UInt8) : Run os start calls answers s →
      Run os start calls answers (s.pushPADFrame buf)
  | getNextFrame {calls : List Call} {answers : List (Option (List UInt8 × ℤ))}
      {s s' : Endpoint} {fuel bufSize : ℕ} {answer : Option (List UInt8 × ℤ)} :
      Run os start calls answers s → s.getNextFrame os fuel bufSize = .ok (answer, s') →
      Run os start (calls ++ [⟨s.inputSocket.pending, bufSize⟩]) (answers ++ [answer]) s'

section

variable {os : Os} {start s : Endpoint} {calls : List Call}
  {answers : List (Option (List UInt8 × ℤ))}

theorem Run.refines (hinput : start.inputSocket.blocking = false)
    (hpad : start.inputPadSocket.blocking = false) (h : Run os start calls answers s) :
    answers = Mealy.outputs AVTInput.getNextFrame start.input calls ∧
      s.input = Mealy.state AVTInput.getNextFrame start.input calls ∧
      s.inputSocket.blocking = false ∧ s.inputPadSocket.blocking = false := by
  induction h with
  | start => exact ⟨rfl, rfl, hinput, hpad⟩
  | arriveInput d ts _ ih => exact ih
  | arrivePad d _ ih => exact ih
  | pushPADFrame buf _ ih =>
    obtain ⟨padFrameQueue, hpush⟩ := pushPADFrame_eq _ buf
    rw [hpush]
    exact ih
  | getNextFrame _ hcall ih =>
    rename_i calls answers s s' fuel bufSize answer _
    obtain ⟨hanswers, hstate, hinput, hpad⟩ := ih
    have hends := ends_getNextFrame os hinput hpad fuel bufSize
    rw [hcall] at hends
    obtain ⟨hconfigured, heq⟩ := hends
    dsimp only at heq
    rw [Mealy.outputs_append, Mealy.state_append, ← hanswers, ← hstate, Mealy.outputs_cons,
      Mealy.state_cons, ← heq]
    exact ⟨rfl, rfl, hconfigured.inputBlocking.trans hinput, hconfigured.padBlocking.trans hpad⟩

end

section Start

variable (os : Os)

/-- The input and the size of the jitter buffer stay. -/
def SameInput (s s' : Endpoint) : Prop :=
  s'.input = s.input ∧ s'.jitterBufferSize = s.jitterBufferSize

theorem ends_receivePad_sameInput (s : Endpoint) :
    Ends (fun _ => True) (fun r => SameInput s r.2) s.receivePad := by
  unfold receivePad
  split
  · trivial
  · exact ⟨rfl, rfl⟩
  · exact ⟨rfl, rfl⟩

theorem ends_purgeMessages_sameInput (fuel : ℕ) (s : Endpoint) :
    Ends (fun _ => True) (SameInput s) (purgeMessages fuel s) := by
  induction fuel generalizing s with
  | zero => trivial
  | succ fuel ih =>
    apply (ends_receivePad_sameInput s).bind
    rintro ⟨buffer, t⟩ ⟨hinput, hsize⟩
    dsimp only at hinput hsize ⊢
    split
    · exact ⟨hinput, hsize⟩
    · exact (ih t).imp_post fun u hu => ⟨hu.1.trans hinput, hu.2.trans hsize⟩

theorem ends_preparePad_sameInput (fuel : ℕ) (s : Endpoint) (ret : ℤ) :
    Ends (fun _ => True) (fun r => SameInput s r.2) (s.preparePad os fuel ret) := by
  unfold preparePad
  split
  · apply Ends.bind_of_forall fun _ => trivial
    rintro ⟨ret', inputPadSocket⟩
    apply (ends_purgeMessages_sameInput fuel { s with inputPadSocket }).bind
    intro t ht
    exact ht
  · exact ⟨rfl, rfl⟩

theorem ends_prepare_sameInput (fuel : ℕ) (s : Endpoint) :
    Ends (fun _ => True) (fun r => SameInput s r.2) (s.prepare os fuel) := by
  apply Ends.bind_of_forall fun _ => trivial
  rintro ⟨ret, inputSocket⟩
  dsimp only
  split
  · exact Ends.bind_of_forall (fun _ => trivial) fun ret' =>
      ends_preparePad_sameInput os fuel { s with inputSocket } ret'
  · exact ends_preparePad_sameInput os fuel { s with inputSocket } ret

/-- Parameters that are set successfully reconfigure the input. -/
theorem ends_setDabPlusParameters_reconfigured (s : Endpoint) (bitrate channels sampleRate : ℤ)
    (sbr ps : Bool) :
    Ends (fun _ => True) (fun r => r.1 = 0 →
        configuredFrameSize bitrate.toNat = some (bitrate.toNat * 3) ∧
          r.2.input = s.input.reconfigured bitrate.toNat s.jitterBufferSize)
      (s.setDabPlusParameters os bitrate channels sampleRate sbr ps) := by
  unfold setDabPlusParameters
  dsimp only
  split
  · exact fun h => absurd h one_ne_zero
  · rename_i hbitrate
    split
    · exact fun h => absurd h one_ne_zero
    · split
      · exact fun h => absurd h one_ne_zero
      · apply ((ends_sendCtrlMessage os _).imp_reason fun _ _ => trivial).bind
        rintro t ht -
        obtain ⟨n, rfl⟩ : ∃ n : ℕ, bitrate = n := ⟨bitrate.toNat, by omega⟩
        have hdiv : (n : ℤ).tdiv 8 = (n / 8 : ℕ) := rfl
        rw [hdiv] at hbitrate
        have hsize : ((n : ℤ) * 3 % 2 ^ 64).toNat = n * 3 := by
          omega
        have hframe : ((n : ℤ).tdiv 8 * 8 * 5 * 3).toNat = n / 8 * 8 * 5 * 3 := by
          rw [hdiv]
          omega
        constructor
        · rw [Int.toNat_natCast, configuredFrameSize, if_neg]
          omega
        · rw [ht.input]
          simp only [AVTInput.reconfigured, Int.toNat_natCast, hsize, hframe]

theorem ends_setDabPlusParameters_input {s : Endpoint} (hindex : s.input.previousRtpIndex = -1)
    (hassembly : s.input.assembly = {}) (bitrate channels sampleRate : ℤ) (sbr ps : Bool) :
    Ends (fun _ => True) (fun r => r.1 = 0 →
        AVTInput.setDabPlusParameters bitrate.toNat s.jitterBufferSize = some r.2.input)
      (s.setDabPlusParameters os bitrate channels sampleRate sbr ps) := by
  apply (ends_setDabPlusParameters_reconfigured os s bitrate channels sampleRate sbr ps).imp_post
  intro r hr h
  obtain ⟨hsize, hinput⟩ := hr h
  simp only [AVTInput.setDabPlusParameters, hsize, Option.map_some, hinput,
    AVTInput.reconfigured, hindex, hassembly]

end Start

theorem run_refines {os : Os} {inputUri outputUri : List Char} {padPort : UInt32}
    {jitterBufferSize fuel : ℕ} {bitrate channels sampleRate : ℤ} {sbr ps : Bool}
    {prepared start s : Endpoint} {calls : List Call} {answers : List (Option (List UInt8 × ℤ))}
    (hprepare : (new inputUri outputUri padPort jitterBufferSize).prepare os fuel =
      .ok (0, prepared))
    (hset : prepared.setDabPlusParameters os bitrate channels sampleRate sbr ps = .ok (0, start))
    (hport : 0 < padPort) (h : Run os start calls answers s) :
    ∃ input, AVTInput.setDabPlusParameters bitrate.toNat jitterBufferSize = some input ∧
      answers = Mealy.outputs AVTInput.getNextFrame input calls ∧
      s.input = Mealy.state AVTInput.getNextFrame input calls := by
  have hends := ends_prepare os (s := new inputUri outputUri padPort jitterBufferSize) fuel rfl
  have hsame := ends_prepare_sameInput os fuel (new inputUri outputUri padPort jitterBufferSize)
  rw [hprepare] at hends hsame
  obtain ⟨hinput, hjitter⟩ := hsame
  dsimp only at hinput hjitter
  have hconfigured := ends_setDabPlusParameters os prepared bitrate channels sampleRate sbr ps
  have hparameters := ends_setDabPlusParameters_input os (s := prepared) (by rw [hinput]; rfl)
    (by rw [hinput]; rfl) bitrate channels sampleRate sbr ps
  rw [hset] at hconfigured hparameters
  have hstart : Prepared padPort start := (hends rfl).of_configured hconfigured
  have hnew := hparameters rfl
  rw [hjitter] at hnew
  obtain ⟨hanswers, hstate, -, -⟩ :=
    h.refines hstart.input (hstart.opened (UInt32.pos_iff_ne_zero.mp hport))
  exact ⟨start.input, hnew, hanswers, hstate⟩

end SourceCompanion.AVTInput.Endpoint
