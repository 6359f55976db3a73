import Mbtk.Client.Loop
import Mbtk.Client.Send

namespace Mbtk.Client

open Lib Coap CoapPDU MString

def requestOptions (uri : Bytes 128) : List CoapOption :=
  [{ CoapOption.zero .contentFormat with optContentFormat := 0 },
    { CoapOption.zero .maxAge with optInt := 1 },
    { CoapOption.zero .uriPath with optStr := uri }]

def blockOption (block : OptionBlock) : CoapOption :=
  { CoapOption.zero .block2 with optBlock := block }

/-- The options of a package: those of a request, unless its method was refused, behind the
Block2 option of a transfer. -/
def packageOptions (block : Option OptionBlock) (uri : Option (Bytes 128)) : List CoapOption :=
  (block.map blockOption).toList ++ uri.elim [] requestOptions

structure Package.Regular (coap : Package) (block : Option OptionBlock) (uri : Option (Bytes 128)) :
    Prop where
  version : coap.version = 1
  type : coap.type = .confirmable
  code : codeAccepted coap.code = true
  tokenLen : coap.tokenLen = 0
  options : coap.options = packageOptions block uri
  terminated : ∀ u ∈ uri, 0 ∈ u.1
  playload : coap.playload.length < 200

section Options

variable {block : Option OptionBlock} {uri : Option (Bytes 128)}

theorem terminated_packageOptions (h : ∀ u ∈ uri, 0 ∈ u.1) :
    ∀ option ∈ packageOptions block uri, option.Terminated := by
  intro option ho htype
  cases block <;> cases uri <;>
    simp [packageOptions, requestOptions, blockOption, CoapOption.zero] at ho h htype ⊢ <;>
    aesop

theorem terminated_uri (h : ∀ option ∈ packageOptions block uri, option.Terminated) :
    ∀ u ∈ uri, 0 ∈ u.1 := by
  intro u hu
  refine h { CoapOption.zero .uriPath with optStr := u } ?_ (.inr rfl)
  rw [Option.mem_def.mp hu]
  simp [packageOptions, requestOptions]

theorem setOption_block2 {coap : Package} (h : coap.options = packageOptions block uri)
    (size number moreFlag : UInt32) :
    setOption coap .block2 [] size number moreFlag =
      .ok { coap with options := packageOptions (some ⟨size, number, moreFlag.toUInt8⟩) uri } := by
  cases block <;> cases uri <;>
    simp [setOption, h, packageOptions, requestOptions, blockOption, CoapOption.zero, assignFirst,
      CoapOption.assign]

theorem setOption_new {coap : Package} {type : OptionType}
    (h : ∀ option ∈ coap.options, option.type ≠ type) (str : List UInt8)
    (int0 int1 int2 : UInt32) :
    setOption coap type str int0 int1 int2 = (do
      let option ← (CoapOption.zero type).assign str int0 int1 int2
      return { coap with options := option :: coap.options }) := by
  have hany : ¬ coap.options.any (·.type = type) = true := by simpa using h
  rw [setOption, if_neg hany]

theorem request_eq {coap : Package} (h : coap.options = []) (argv : List (List UInt8)) :
    coap.request argv = (do
      let uri ← setOptStr (argv.getD 1 [])
      return { coap with
        options := requestOptions uri
        playload := if argv.length = 3 then argv.getD 2 [] else coap.playload }) := by
  rw [Package.request, setOption_new (by simp [h])]
  cases huri : setOptStr (argv.getD 1 []) with
  | error e =>
    simp only [CoapOption.assign, CoapOption.zero, huri]
    rfl
  | ok uri =>
    simp only [CoapOption.assign, CoapOption.zero, huri, h, ok_bind, pure_eq_ok]
    rw [setOption_new (by simp)]
    simp only [CoapOption.assign, CoapOption.zero, ok_bind, pure_eq_ok]
    rw [setOption_new (by simp)]
    simp only [CoapOption.assign, CoapOption.zero, ok_bind]
    split_ifs <;> rfl

end Options

section Size

theorem length_uriPairsLoop_le (fuel : ℕ) (startP : List UInt8) (splitChar : UInt8)
    (optionType : UInt16) :
    (uriPairsLoop fuel startP splitChar optionType).length ≤ fuel := by
  induction fuel generalizing startP splitChar optionType with
  | zero => exact le_rfl
  | succ fuel ih =>
    unfold uriPairsLoop
    split_ifs
    · exact Nat.zero_le _
    · generalize nextSegment startP splitChar = r
      obtain ⟨segment, rest, query⟩ := r
      dsimp only
      rw [List.length_cons]
      split_ifs
      · exact Nat.succ_le_succ (ih _ _ _)
      · exact Nat.succ_le_succ (ih _ _ _)

theorem length_uriPairs_le (uri : List UInt8) : (uriPairs uri).length ≤ uri.length := by
  match uri with
  | [] => exact le_rfl
  | [c] => exact le_rfl
  | c :: c' :: uri => exact length_uriPairsLoop_le _ _ _ _

theorem length_encodeOptions_le {opts : List Opt} {n : ℕ} (h : ∀ o ∈ opts, o.value.length ≤ n)
    (k : ℕ) : (encodeOptions k opts).length ≤ opts.length * (n + 5) := by
  induction opts generalizing k with
  | nil => simp
  | cons o opts ih =>
    have ho := h o (by simp)
    have hrest := ih (fun o ho => h o (by simp [ho])) o.key
    have hδ := ExtNat.length_extension_le (o.key - k)
    have hl := ExtNat.length_extension_le o.value.length
    rw [encodeOptions_cons, List.length_append, length_encodeRecord, List.length_cons, Nat.add_mul]
    dsimp only
    omega

variable {block : Option OptionBlock} {uri : Option (Bytes 128)}

theorem length_packagePairs_le : (packagePairs (packageOptions block uri)).length ≤ 131 := by
  cases uri with
  | none =>
    cases block <;>
      simp [packagePairs, packageOptions, blockOption, optionPairs, CoapOption.zero]
  | some uri =>
    have hstr := CoapOption.length_str_le { CoapOption.zero .uriPath with optStr := uri }
    have hpairs := length_uriPairs_le
      (CoapOption.str { CoapOption.zero .uriPath with optStr := uri })
    cases block <;>
      simp [packagePairs, packageOptions, requestOptions, blockOption, optionPairs, CoapOption.zero]
        at hstr hpairs ⊢ <;>
      omega

theorem Package.mem_sentOptions {coap : Package} {o : Opt} :
    o ∈ coap.sentOptions ↔ o ∈ packagePairs coap.options := by
  rw [coap.sentOptions_eq, List.mem_insertionSort]

theorem Package.Regular.size {coap : Package} (h : coap.Regular block uri) :
    coap.message.length < 65536 := by
  have hvalues : ∀ o ∈ coap.sentOptions, o.value.length ≤ 268 := by
    intro o ho
    obtain ⟨option, -, ho⟩ := List.mem_flatMap.mp (Package.mem_sentOptions.mp ho)
    exact optionPairs_short option o ho
  have hcount : coap.sentOptions.length ≤ 131 := by
    rw [coap.sentOptions_eq, List.length_insertionSort, h.options]
    exact length_packagePairs_le
  have hoptions := length_encodeOptions_le hvalues 0
  have hpayload : (encodePayload coap.playload).length ≤ 200 := by
    have := h.playload
    unfold encodePayload
    split_ifs
    · simp
    · rw [List.length_cons]
      omega
  have htoken := coap.length_sentToken_le (by rw [h.tokenLen]; decide)
  rw [Package.message, length_encodeMessage, Package.header, length_messageHeader]
  omega

theorem Package.Regular.admissible {coap : Package} (h : coap.Regular block uri) :
    coap.Admissible where
  version := h.version
  code := h.code
  tokenLen := by
    rw [h.tokenLen]
    decide
  terminated := by
    rw [h.options]
    exact terminated_packageOptions h.terminated
  size := h.size

end Size

end Mbtk.Client
