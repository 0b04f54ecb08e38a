import BitcoinSv.Bytes
import BitcoinSv.Openssl.Bignum
import BitcoinSv.Openssl.Mpi
import BitcoinSv.Openssl.Convert
import BitcoinSv.BigInt.Bint
import BitcoinSv.BigInt.Serialize
import BitcoinSv.BigInt.Bitwise
import BitcoinSv.BigInt.Integer
import BitcoinSv.BigInt.Convert
import BitcoinSv.Task.Cancellation
