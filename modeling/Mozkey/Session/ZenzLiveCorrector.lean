import Mozkey.Session.Protocol

/-! The corrector of `session/zenz_live_corrector.cc`: the one request and the one response that a
session and its worker thread hand to each other. Each function here is one critical section. -/

namespace Mozkey.Session

structure ZenzLiveRequest where
  generation : UInt32
  key : Text
  prompt : Text := []
  leftContext : Text := []
  mozcValue : Text := []
  readingKatakana : Text := []
  pipeName : Text := []
  timeoutMsec : Nat := 0
  maxOutputChars : Nat := 128
  issuedAt : Nat := 0
  deriving DecidableEq

structure ZenzLiveResponse where
  generation : UInt32
  key : Text
  value : Text := []
  debug : Text := []
  ok : Bool := false
  timeout : Bool := false
  deriving DecidableEq

structure ZenzLiveCorrector where
  latestRequest : Option ZenzLiveRequest := none
  latestResult : Option ZenzLiveResponse := none
  deriving DecidableEq

namespace ZenzLiveCorrector

def submit (request : ZenzLiveRequest) (_ : ZenzLiveCorrector) : ZenzLiveCorrector :=
  { latestRequest := some request, latestResult := none }

def cancelPending (_ : ZenzLiveCorrector) : ZenzLiveCorrector := {}

/-- The result is taken away in either case; it is given out only for its own generation. -/
def takeResult (generation : UInt32) (corrector : ZenzLiveCorrector) :
    Option ZenzLiveResponse × ZenzLiveCorrector :=
  (corrector.latestResult.filter fun result => result.generation == generation,
    { corrector with latestResult := none })

def takeRequest (corrector : ZenzLiveCorrector) : Option ZenzLiveRequest × ZenzLiveCorrector :=
  (corrector.latestRequest, { corrector with latestRequest := none })

/-- The second half, with the response of the client. -/
def storeResult (response : ZenzLiveResponse) (corrector : ZenzLiveCorrector) :
    ZenzLiveCorrector :=
  { corrector with latestResult := some response }

end ZenzLiveCorrector

end Mozkey.Session
