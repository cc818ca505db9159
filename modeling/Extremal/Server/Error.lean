import Extremal.Store.Tables

inductive ApiError
  | badRequest (message : String)
  | notFound (message : String)
  | invalidSignature
  | unregisteredIdentity (keyId : String)
  | internal (message : String)
  | store (e : StoreError)
deriving DecidableEq
